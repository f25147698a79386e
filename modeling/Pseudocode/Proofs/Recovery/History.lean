import Pseudocode.Proofs.Recovery.Fusion
import Pseudocode.Proofs.Recovery.Numbering

namespace Pseudocode

namespace Findings

/-- One change to the findings about a function. Every step may bring its own tree or settings. -/
inductive Step
  | fuse (t : Tree)
  | recoverSlots (t : Tree)
  | recoverCanary (settings : Canary.Settings) (symbols : Symbols)
  | discover (displacement : Int64) (size : UInt8)
  | appendSuffix (displacement : Int64) (suffix : String)
  | mark (address : UInt64)

namespace Step

def accesses (s : Stream) : Step → List (Int64 × UInt8)
  | .recoverSlots t => t.localAccesses s
  | .discover displacement size => [(displacement, size)]
  | .fuse _ | .recoverCanary .. | .appendSuffix .. | .mark _ => []

def marks (s : Stream) : Step → List UInt64
  | .fuse t => t.fusedAddresses s
  | .mark address => [address]
  | .recoverSlots _ | .recoverCanary .. | .discover .. | .appendSuffix .. => []

end Step

def step (s : Stream) (f : Findings) : Step → Findings
  | .fuse t => f.fuse s t
  | .recoverSlots t => f.recoverSlots s t
  | .recoverCanary settings symbols => (f.recoverCanary settings symbols s).1
  | .discover displacement size => { f with slots := f.slots.discover displacement size }
  | .appendSuffix displacement suffix =>
    { f with slots := f.slots.appendSuffix displacement suffix }
  | .mark address => { f with fused := f.fused.insert address }

def run (s : Stream) (f : Findings) (steps : List Step) : Findings :=
  steps.foldl (step s) f

/-- What is known after some steps, when nothing was known before. -/
def ofSteps (s : Stream) (stem : String) (steps : List Step) : Findings :=
  (start stem).run s steps

variable (s : Stream) (f : Findings)

theorem numbered_step {stem : String} (h : f.slots.Numbered stem) (step : Step) :
    (f.step s step).slots.Numbered stem := by
  cases step with
  | fuse t => exact h
  | recoverSlots t => exact h.discoverAll (t.localAccesses s)
  | recoverCanary settings symbols =>
    apply Canary.recover_induction settings symbols s (p := SlotTable.Numbered stem)
    · intro t d suffix ht
      exact ht.appendSuffix d suffix
    · exact h
  | discover d size => exact h.discover d size
  | appendSuffix d suffix => exact h.appendSuffix d suffix
  | mark a => exact h

theorem continuesAs_step (step : Step) : f.slots.ContinuesAs (f.step s step).slots := by
  cases step with
  | fuse t => exact .refl f.slots
  | recoverSlots t => exact SlotTable.continuesAs_discoverAll f.slots (t.localAccesses s)
  | recoverCanary settings symbols =>
    apply Canary.recover_induction settings symbols s (p := f.slots.ContinuesAs)
    · intro t d suffix ht
      exact ht.trans (SlotTable.continuesAs_appendSuffix t d suffix)
    · exact .refl f.slots
  | discover d size => exact SlotTable.continuesAs_discover f.slots d size
  | appendSuffix d suffix => exact SlotTable.continuesAs_appendSuffix f.slots d suffix
  | mark a => exact .refl f.slots

theorem contains_slots_step (step : Step) (d : Int64) :
    (f.step s step).slots.contains d = true ↔
      f.slots.contains d = true ∨ ∃ size, (d, size) ∈ step.accesses s := by
  cases step with
  | recoverSlots t => exact SlotTable.contains_discoverAll f.slots (t.localAccesses s) d
  | discover e size =>
    have h := SlotTable.contains_discover f.slots e d size
    simpa [step, Step.accesses] using h
  | recoverCanary settings symbols =>
    have h := Canary.contains_recover settings symbols s f.slots d
    simp [step, recoverCanary, Step.accesses, h]
  | appendSuffix e suffix =>
    have h := SlotTable.contains_appendSuffix f.slots e d suffix
    simp [step, Step.accesses, h]
  | fuse t => simp [step, fuse, Step.accesses]
  | mark a => simp [step, Step.accesses]

theorem contains_fused_step (step : Step) (a : UInt64) :
    (f.step s step).fused.contains a = true ↔
      f.fused.contains a = true ∨ a ∈ step.marks s := by
  cases step with
  | fuse t => exact contains_fuse f s t a
  | mark b => simp [step, Step.marks, Marks.contains_insert, or_comm]
  | recoverSlots t => simp [step, recoverSlots, Step.marks]
  | recoverCanary settings symbols => simp [step, recoverCanary, Step.marks]
  | discover e size => simp [step, Step.marks]
  | appendSuffix e suffix => simp [step, Step.marks]

theorem numbered_run {stem : String} (h : f.slots.Numbered stem) (steps : List Step) :
    (f.run s steps).slots.Numbered stem := by
  induction steps generalizing f with
  | nil => exact h
  | cons step steps ih => exact ih (f.step s step) (numbered_step s f h step)

theorem continuesAs_run (steps : List Step) : f.slots.ContinuesAs (f.run s steps).slots := by
  induction steps generalizing f with
  | nil => exact .refl f.slots
  | cons step steps ih => exact (continuesAs_step s f step).trans (ih (f.step s step))

theorem contains_slots_run (steps : List Step) (d : Int64) :
    (f.run s steps).slots.contains d = true ↔
      f.slots.contains d = true ∨ ∃ step ∈ steps, ∃ size, (d, size) ∈ step.accesses s := by
  induction steps generalizing f with
  | nil => simp [run]
  | cons step steps ih =>
    have h := ih (f.step s step)
    rw [run] at h ⊢
    rw [List.foldl_cons, h, contains_slots_step, List.exists_mem_cons_iff, or_assoc]

theorem contains_fused_run (steps : List Step) (a : UInt64) :
    (f.run s steps).fused.contains a = true ↔
      f.fused.contains a = true ∨ ∃ step ∈ steps, a ∈ step.marks s := by
  induction steps generalizing f with
  | nil => simp [run]
  | cons step steps ih =>
    have h := ih (f.step s step)
    rw [run] at h ⊢
    rw [List.foldl_cons, h, contains_fused_step, List.exists_mem_cons_iff, or_assoc]

/-- After any steps, the slots are numbered from one on, each is found at a displacement of its own,
and there is one for every access that was recorded, and a mark for every address that was marked.
Further steps add to that: slots keep their place, number, displacement and size, names only get
longer, and marks stay. -/
theorem ofSteps_numbered_and_continues (stem : String) (before after : List Step) :
    (ofSteps s stem before).slots.Numbered stem ∧
    (∀ d slot, (ofSteps s stem before).slots.get? d = some slot ↔
      slot ∈ (ofSteps s stem before).slots.slots ∧ slot.displacement = d) ∧
    (∀ d, (ofSteps s stem before).slots.contains d = true ↔
      ∃ step ∈ before, ∃ size, (d, size) ∈ step.accesses s) ∧
    (∀ a, (ofSteps s stem before).fused.contains a = true ↔
      ∃ step ∈ before, a ∈ step.marks s) ∧
    (ofSteps s stem before).slots.ContinuesAs (ofSteps s stem (before ++ after)).slots ∧
    ∀ a, (ofSteps s stem before).fused.contains a = true →
      (ofSteps s stem (before ++ after)).fused.contains a = true := by
  have hn : (ofSteps s stem before).slots.Numbered stem :=
    numbered_run s (start stem) (SlotTable.numbered_empty stem) before
  have hl : ofSteps s stem (before ++ after) = (ofSteps s stem before).run s after :=
    List.foldl_append
  refine ⟨hn, hn.get?_eq_some_iff, ?_, ?_, ?_, ?_⟩
  · intro d
    have he : ¬ (start stem).slots.contains d = true := Bool.false_ne_true
    exact (contains_slots_run s (start stem) before d).trans (or_iff_right he)
  · intro a
    have he : ¬ (start stem).fused.contains a = true := Bool.false_ne_true
    exact (contains_fused_run s (start stem) before a).trans (or_iff_right he)
  · rw [hl]
    exact continuesAs_run s (ofSteps s stem before) after
  · intro a ha
    rw [hl]
    exact (contains_fused_run s (ofSteps s stem before) after a).mpr (.inl ha)

end Findings

end Pseudocode
