import Mathlib.Data.List.Nodup
import Pseudocode.Proofs.Line.Operands
import Pseudocode.Proofs.Machine.Operand
import Pseudocode.Proofs.Recovery.Slots

namespace Pseudocode

namespace Register

def isGeneral (r : Register) (widths : List UInt16) : Bool :=
  r.kind == .general && r.id.toNat < 16 && widths.contains r.size

/-- The byte and the word at the low end are named in the first eight registers. -/
def isNamed (r : Register) : Bool :=
  r.isGeneral [8, 16, 32, 64] && (32 ≤ r.size || r.id.toNat < 8)

def isSegment (r : Register) : Bool :=
  r.kind == .segment && 32 ≤ r.id.toNat && r.id.toNat < 38

theorem isNamed_of_isGeneral {r : Register} (h : r.isGeneral [32, 64] = true) :
    r.isNamed = true := by
  simp only [isGeneral, Bool.and_eq_true, List.contains_iff_mem, List.mem_cons, List.not_mem_nil,
    or_false] at h
  obtain ⟨⟨hk, hi⟩, hs | hs⟩ := h
  all_goals simp [isNamed, isGeneral, hk, hi, hs]

def counts : List (Nat × UInt16) := [(8, 8), (8, 16), (16, 32), (16, 64)]

def named : List (UInt16 × UInt16) :=
  counts.flatMap fun (count, size) => (List.range count).map fun id => (UInt16.ofNat id, size)

theorem nodup_names_named : (named.map fun k => (general .x86_64 k.1 k.2).name).Nodup := by
  decide +kernel

theorem mem_named {r : Register} (h : r.isNamed = true) : (r.id, r.size) ∈ named := by
  have hm : ∀ count, (count, r.size) ∈ counts → r.id.toNat < count →
      (r.id, r.size) ∈ named := by
    intro count hc hr
    refine List.mem_flatMap.mpr ⟨_, hc, List.mem_map.mpr ⟨r.id.toNat, List.mem_range.mpr hr, ?_⟩⟩
    rw [UInt16.ofNat_toNat]
  simp only [isNamed, isGeneral, Bool.and_eq_true, Bool.or_eq_true, decide_eq_true_eq,
    List.contains_iff_mem, List.mem_cons, List.not_mem_nil, or_false] at h
  obtain ⟨⟨⟨-, hi⟩, hs⟩, hw⟩ := h
  have hlow : ¬ 32 ≤ r.size → r.id.toNat < 8 := hw.resolve_left
  obtain hs | hs | hs | hs := hs
  · exact hm 8 (by simp [counts, hs]) (hlow (by rw [hs]; decide))
  · exact hm 8 (by simp [counts, hs]) (hlow (by rw [hs]; decide))
  · exact hm 16 (by simp [counts, hs]) hi
  · exact hm 16 (by simp [counts, hs]) hi

theorem eq_of_name_eq {r s : Register} (hr : r.isNamed = true) (hs : s.isNamed = true)
    (h : r.name = s.name) : r.id = s.id ∧ r.size = s.size := by
  have he := List.inj_on_of_nodup_map nodup_names_named (mem_named hr) (mem_named hs) h
  exact Prod.mk.inj he

example : (general .x86_64 8 8).name = (general .x86_64 9 8).name := by decide

theorem bounds_of_isSegment {r : Register} (h : r.isSegment = true) :
    32 ≤ r.id.toNat ∧ r.id.toNat < 32 + segmentNames.length := by
  simp only [isSegment, Bool.and_eq_true, decide_eq_true_eq] at h
  exact ⟨h.1.2, h.2⟩

theorem getElem?_segmentNames {r : Register} (h : r.isSegment = true) :
    segmentNames[r.id.toNat - 32]? = some r.name := by
  obtain ⟨hl, hu⟩ := bounds_of_isSegment h
  have hlen : r.id.toNat - 32 < segmentNames.length := by omega
  rw [name, if_neg (Nat.not_lt.mpr hl), List.getElem?_eq_getElem hlen]
  rfl

theorem id_eq_of_name_eq {r s : Register} (hr : r.isSegment = true) (hs : s.isSegment = true)
    (h : r.name = s.name) : r.id = s.id := by
  have he : segmentNames[r.id.toNat - 32]? = segmentNames[s.id.toNat - 32]? := by
    rw [getElem?_segmentNames hr, getElem?_segmentNames hs, h]
  obtain ⟨hl, hu⟩ := bounds_of_isSegment hr
  obtain ⟨hl', -⟩ := bounds_of_isSegment hs
  have hi : r.id.toNat - 32 = s.id.toNat - 32 :=
    (List.getElem?_inj (by omega) (by decide)).mp he
  exact UInt16.toNat_inj.mp (by omega)

/-- What the register reads as, if the registers hold `contents` in full width. -/
def read (contents : UInt16 → BitVec 64) (r : Register) : BitVec 64 :=
  ((contents r.id).setWidth r.size.toNat).setWidth 64

theorem read_congr (contents : UInt16 → BitVec 64) {r s : Register} (hi : r.id = s.id)
    (hs : r.size = s.size) : r.read contents = s.read contents := by
  rw [read, read, hi, hs]

theorem exists_values (contents : UInt16 → BitVec 64) :
    ∃ values : String → BitVec 64, ∀ r : Register, r.isNamed = true →
      values r.name = r.read contents := by
  let names : { r : Register // r.isNamed = true } → String := fun r => r.1.name
  let reads : { r : Register // r.isNamed = true } → BitVec 64 := fun r => r.1.read contents
  have hf : reads.FactorsThrough names := by
    rintro ⟨r, hr⟩ ⟨s, hs⟩ h
    obtain ⟨hi, hsize⟩ := eq_of_name_eq hr hs h
    exact read_congr contents hi hsize
  exact ⟨Function.extend names reads fun _ => 0, fun r hr => hf.extend_apply _ ⟨r, hr⟩⟩

end Register

inductive Location
  | register (id size : UInt16)
  | memory (segment : Option UInt16) (address : BitVec 64) (size : UInt8)
  deriving DecidableEq

/-- Both widths of the frame pointer have the same value. -/
def OneFrame (contents : UInt16 → BitVec 64) : Prop :=
  ∀ r s : Register, r.isFramePointer = true → s.isFramePointer = true →
    r.read contents = s.read contents

namespace Memory

def isGeneral (m : Memory) : Bool :=
  m.base.all (·.isGeneral [32, 64]) && m.index.all (·.isGeneral [32, 64]) &&
    m.segment.all Register.isSegment && [1, 2, 4, 8].contains m.scale

def location (contents : UInt16 → BitVec 64) (m : Memory) : Location :=
  .memory (m.segment.map Register.id) (m.address (Register.read contents)) m.size

variable {contents : UInt16 → BitVec 64} {m n : Memory}

theorem scale_pos_of_isGeneral (h : m.isGeneral = true) : 0 < m.scale := by
  simp only [isGeneral, Bool.and_eq_true, List.contains_iff_mem] at h
  exact scale_pos h.2

theorem address_read_eq (h : m.isGeneral = true) {values : String → BitVec 64}
    (hv : ∀ r : Register, r.isNamed = true → values r.name = r.read contents) :
    m.address (Register.read contents) = m.address (values ·.name) := by
  simp only [isGeneral, Bool.and_eq_true, Option.all_eq_true] at h
  obtain ⟨⟨⟨hb, hi⟩, -⟩, -⟩ := h
  have helim : ∀ r? : Option Register, (∀ r, r? = some r → r.isGeneral [32, 64] = true) →
      r?.elim 0 (Register.read contents) = r?.elim 0 (values ·.name) := by
    rintro (_ | r) hr
    · rfl
    · exact (hv r (Register.isNamed_of_isGeneral (hr r rfl))).symm
  rw [address, address, helim m.base hb, helim m.index hi]

theorem segment_id_eq (hm : m.isGeneral = true) (hn : n.isGeneral = true)
    (h : m.segment.map Register.name = n.segment.map Register.name) :
    m.segment.map Register.id = n.segment.map Register.id := by
  simp only [isGeneral, Bool.and_eq_true, Option.all_eq_true] at hm hn
  cases hms : m.segment with
  | none =>
    cases hns : n.segment with
    | none => rfl
    | some s => simp [hms, hns] at h
  | some r =>
    cases hns : n.segment with
    | none => simp [hms, hns] at h
    | some s =>
      simp only [hms, hns, Option.map_some, Option.some.injEq] at h
      exact congrArg some (Register.id_eq_of_name_eq (hm.1.2 r hms) (hn.1.2 s hns) h)

theorem location_eq_of_text_eq (hm : m.isGeneral = true) (hn : n.isGeneral = true)
    (hs : m.size = n.size) (h : m.text = n.text) (contents : UInt16 → BitVec 64) :
    m.location contents = n.location contents := by
  obtain ⟨hsegment, hterms, hd⟩ :=
    eq_of_text_eq (scale_pos_of_isGeneral hm) (scale_pos_of_isGeneral hn) h
  obtain ⟨values, hv⟩ := Register.exists_values contents
  rw [location, location, segment_id_eq hm hn hsegment, address_read_eq hm hv,
    address_read_eq hn hv, address_congr hterms hd, hs]

theorem exists_base_of_isLocal (h : m.isLocal = true) :
    ∃ r : Register, r.isFramePointer = true ∧ m.base = some r ∧ m.index = none ∧
      m.segment = none := by
  simp only [isLocal, Bool.and_eq_true, Option.isNone_iff_eq_none, Option.any_eq_true] at h
  obtain ⟨⟨⟨hi, hs⟩, -⟩, r, hb, hr⟩ := h
  exact ⟨r, hr, hb, hi, hs⟩

/-- Local variables at one offset are at the same location, if both are reached through the same
register or both widths of the frame pointer have the same value. -/
theorem location_eq_of_isLocal (hm : m.isLocal = true) (hn : n.isLocal = true)
    (hd : m.displacement = n.displacement) (hs : m.size = n.size)
    (hf : m.base.map Register.size ≠ n.base.map Register.size → OneFrame contents) :
    m.location contents = n.location contents := by
  obtain ⟨r, hr, hmb, hmi, hms⟩ := exists_base_of_isLocal hm
  obtain ⟨s, hs', hnb, hni, hns⟩ := exists_base_of_isLocal hn
  have hread : r.read contents = s.read contents := by
    by_cases hw : r.size = s.size
    · have hid : ∀ {r : Register}, r.isFramePointer = true → r.id = 5 := by
        intro r hr
        simp only [Register.isFramePointer, Bool.and_eq_true, beq_iff_eq] at hr
        exact hr.1.2
      exact Register.read_congr contents ((hid hr).trans (hid hs').symm) hw
    · exact hf (by simpa [hmb, hnb] using hw) r s hr hs'
  rw [location, location, address, address, hmb, hnb, hmi, hni, hms, hns, hd, hs]
  simp [hread]

end Memory

namespace Operand

def isGeneral : Operand → Bool
  | .register r => r.isGeneral [8, 16, 32, 64]
  | .memory m => m.isGeneral
  | _ => false

def location? (contents : UInt16 → BitVec 64) : Operand → Option Location
  | .register r => some (.register r.id r.size)
  | .memory m => some (m.location contents)
  | _ => none

/-- Local variables, one reached through the frame pointer and one through its lower half. -/
def MixedFrames (a b : Operand) : Prop :=
  ∃ m n, a.asLocal? = some m ∧ b.asLocal? = some n ∧
    m.base.map Register.size ≠ n.base.map Register.size

theorem name_ne_text (r : Register) (m : Memory) : r.name ≠ m.text := by
  intro h
  apply Register.not_mem_of_mem (c := '[') r.name_mem_allNames (by decide)
  rw [h, Memory.toList_text]
  exact List.mem_append_right _ List.mem_cons_self

theorem exists_location_of_text_eq {a b : Operand} (ha : a.isGeneral = true)
    (hb : b.isGeneral = true)
    (hr : ∀ r : Register, .register r ∈ [a, b] → 32 ≤ r.size ∨ r.id.toNat < 8)
    (hs : ∀ m n, a = .memory m → b = .memory n → m.size = n.size) (h : a.text = b.text)
    (contents : UInt16 → BitVec 64) :
    ∃ l, a.location? contents = some l ∧ b.location? contents = some l := by
  have hnamed : ∀ r : Register, .register r ∈ [a, b] → r.isGeneral [8, 16, 32, 64] = true →
      r.isNamed = true := by
    intro r hm hg
    simpa [Register.isNamed, hg] using hr r hm
  cases a with
  | register r =>
    cases b with
    | register s =>
      obtain ⟨hi, hsize⟩ := Register.eq_of_name_eq (hnamed r (by simp) ha) (hnamed s (by simp) hb) h
      exact ⟨_, rfl, by rw [location?, hi, hsize]⟩
    | memory n => exact absurd h (name_ne_text r n)
    | immediate imm => cases hb
    | relative offset target => cases hb
  | memory m =>
    cases b with
    | register s => exact absurd h.symm (name_ne_text s m)
    | memory n =>
      have hp := Memory.location_eq_of_text_eq ha hb (hs m n rfl rfl) h contents
      exact ⟨_, rfl, by rw [location?, hp]⟩
    | immediate imm => cases hb
    | relative offset target => cases hb
  | immediate imm => cases ha
  | relative offset target => cases ha

end Operand

/-- An exclusive-or of general registers and of memory references of one width. -/
structure Instruction.IsXor (i : Instruction) (a b : Operand) : Prop where
  not_call : i.isCall = false
  operation : i.operation = .xor
  operands : i.operands = [a, b]
  left : a.isGeneral = true
  right : b.isGeneral = true
  sizes : ∀ m n, a = .memory m → b = .memory n → m.size = n.size

/-- The names of the slots differ from each other and from the texts of the operands. -/
structure SlotTable.Unmistakable (t : SlotTable) (operands : List Operand) : Prop where
  distinct : (t.slots.map Slot.name).Nodup
  not_text : ∀ slot ∈ t.slots, ∀ op ∈ operands, slot.name ≠ op.text

namespace Scene

variable {scene : Scene} {i : Instruction} {a b op : Operand}

theorem assignment_xor (mnemonic dst src : String) :
    assignment .xor mnemonic [dst, src] =
      if dst = src then dst ++ " = 0" else dst ++ " " ++ "^=" ++ " " ++ src := by
  simp [assignment, Operation.assignOperator?]

theorem statement_eq_zeroing_iff (h : i.IsXor a b) :
    scene.statement i = [.text (scene.operand a ++ " = 0")] ↔
      scene.operand a = scene.operand b := by
  have hs : scene.statement i =
      [.text (assignment .xor i.mnemonic [scene.operand a, scene.operand b])] := by
    rw [statement_eq_assignment scene (by simp [h.not_call, h.operation]), operands, h.operands,
      h.operation]
    rfl
  rw [hs, assignment_xor]
  split
  next he => simp [he]
  next he =>
    have hne : scene.operand a ++ " " ++ "^=" ++ " " ++ scene.operand b ≠
        scene.operand a ++ " = 0" := by
      intro hs
      simp only [String.append_assoc, String.append_right_inj] at hs
      simpa using congrArg String.toList hs
    simpa [he] using hne

theorem exists_slot {name : String}
    (h : (op.asLocal?.map Memory.displacement).bind scene.slots.nameOf? = some name) :
    ∃ m, op.asLocal? = some m ∧ ∃ slot ∈ scene.slots.slots,
      slot.displacement = m.displacement ∧ slot.name = name := by
  obtain ⟨d, hd, hn⟩ := Option.bind_eq_some_iff.mp h
  obtain ⟨m, hm, rfl⟩ := Option.map_eq_some_iff.mp hd
  obtain ⟨slot, hs, rfl⟩ := Option.map_eq_some_iff.mp hn
  have hd : slot.displacement = m.displacement := by simpa using List.find?_some hs
  exact ⟨m, hm, slot, List.mem_of_find?_eq_some hs, hd, rfl⟩

/-- Operands that read the same have the same text, or the same slot. -/
theorem text_eq_or_displacement_eq (hu : scene.slots.Unmistakable [a, b])
    (h : scene.operand a = scene.operand b) :
    a.text = b.text ∨ ∃ m n, a.asLocal? = some m ∧ b.asLocal? = some n ∧
      m.displacement = n.displacement := by
  rw [operand, operand] at h
  -- A name on one side only would be the text of the other operand.
  cases ha : (a.asLocal?.map Memory.displacement).bind scene.slots.nameOf? with
  | none =>
    cases hb : (b.asLocal?.map Memory.displacement).bind scene.slots.nameOf? with
    | none => exact .inl (by simpa [ha, hb] using h)
    | some name =>
      obtain ⟨n, -, slot, hs, -, rfl⟩ := exists_slot hb
      rw [ha, hb] at h
      exact absurd h.symm (hu.not_text slot hs a (by simp))
  | some name =>
    obtain ⟨m, hm, slot, hs, hd, rfl⟩ := exists_slot ha
    cases hb : (b.asLocal?.map Memory.displacement).bind scene.slots.nameOf? with
    | none =>
      rw [ha, hb] at h
      exact absurd h (hu.not_text slot hs b (by simp))
    | some name =>
      obtain ⟨n, hn, slot', hs', hd', rfl⟩ := exists_slot hb
      rw [ha, hb] at h
      have he : slot = slot' := List.inj_on_of_nodup_map hu.distinct hs hs' h
      exact .inr ⟨m, n, hm, hn, by rw [← hd, ← hd', he]⟩

/-- An exclusive-or that is worded as a zero has its two operands at the same location, whatever the
registers hold. If they are local variables through different widths of the frame pointer, both
widths have to have the same value. -/
theorem same_location_of_zeroing (scene : Scene) (i : Instruction) (a b : Operand)
    (h : i.IsXor a b) (hr : ∀ r : Register, .register r ∈ [a, b] → 32 ≤ r.size ∨ r.id.toNat < 8)
    (hu : scene.slots.Unmistakable [a, b])
    (hz : scene.statement i = [.text (scene.operand a ++ " = 0")])
    (contents : UInt16 → BitVec 64) (hf : a.MixedFrames b → OneFrame contents) :
    ∃ l, a.location? contents = some l ∧ b.location? contents = some l := by
  have he := (statement_eq_zeroing_iff h).mp hz
  obtain ht | ⟨m, n, hm, hn, hd⟩ := text_eq_or_displacement_eq hu he
  · exact Operand.exists_location_of_text_eq h.left h.right hr h.sizes ht contents
  · have hma := Operand.eq_memory_of_asLocal? hm
    have hnb := Operand.eq_memory_of_asLocal? hn
    have hp := Memory.location_eq_of_isLocal (Option.filter_eq_some_iff.mp hm).2
      (Option.filter_eq_some_iff.mp hn).2 hd (h.sizes m n hma hnb)
      fun hw => hf ⟨m, n, hm, hn, hw⟩
    exact ⟨m.location contents, by rw [hma, Operand.location?], by rw [hnb, Operand.location?, hp]⟩

def frame : Scene := ⟨.x86_64, ⟨[], rfl⟩, (SlotTable.empty "var").discover (-8) 4, .empty⟩

def xorOf (a b : Operand) : Instruction :=
  { Instruction.bare 0x1000 4 [] "xor" with operation := .xor, operands := [a, b] }

theorem isXor_xorOf {m n : Memory} (hm : m.isGeneral = true) (hn : n.isGeneral = true)
    (hs : m.size = n.size) : (xorOf (.memory m) (.memory n)).IsXor (.memory m) (.memory n) where
  not_call := rfl
  operation := rfl
  operands := rfl
  left := hm
  right := hn
  sizes := by
    rintro _ _ ⟨⟩ ⟨⟩
    exact hs

theorem same_location_of_zeroing_bareRegister :
    let rax := Register.general .x86_64 0 64
    let a := Operand.memory (.direct rax 4)
    let b := Operand.memory (.indexed none (some rax) 1 0 4)
    (xorOf a b).IsXor a b ∧ frame.slots.Unmistakable [a, b] ∧
      frame.statement (xorOf a b) = [.text "[rax] = 0"] ∧ ¬ a.MixedFrames b ∧
      ∀ contents, ∃ l, a.location? contents = some l ∧ b.location? contents = some l := by
  intro rax a b
  have hx : (xorOf a b).IsXor a b := isXor_xorOf (by decide) (by decide) rfl
  have hu : frame.slots.Unmistakable [a, b] := ⟨by decide, by decide⟩
  have hz : frame.statement (xorOf a b) = [.text "[rax] = 0"] := by decide
  have hf : ¬ a.MixedFrames b := by
    rintro ⟨m, n, hm, -⟩
    cases hm
  refine ⟨hx, hu, hz, hf, fun contents => ?_⟩
  exact same_location_of_zeroing frame (xorOf a b) a b hx (by simp [a, b]) hu hz contents
    fun h => absurd h hf

/-- A slot does not tell the frame pointer from its lower half. Both operands read as the variable,
and yet they are at different locations if the frame is beyond the first four gigabytes. -/
theorem zeroing_of_two_locations :
    let a := Operand.memory (.offset (Register.general .x86_64 5 64) (-8) 4)
    let b := Operand.memory (.offset (Register.general .x86_64 5 32) (-8) 4)
    (xorOf a b).IsXor a b ∧ frame.slots.Unmistakable [a, b] ∧
      frame.statement (xorOf a b) = [.text (frame.operand a ++ " = 0")] ∧
      frame.statement (xorOf a b) = [.text "var1 = 0"] ∧
      ∃ contents, a.location? contents ≠ b.location? contents := by
  intro a b
  refine ⟨isXor_xorOf (by decide) (by decide) rfl, ⟨by decide, by decide⟩, by decide, by decide,
    fun _ => 0x7fff00001000, by decide⟩

end Scene

end Pseudocode
