import Mathlib.Data.List.Nodup
import Pseudocode.Proofs.Recovery.Canary

namespace Pseudocode

namespace Slot

structure ContinuesAs (earlier later : Slot) : Prop where
  id : later.id = earlier.id
  displacement : later.displacement = earlier.displacement
  size : later.size = earlier.size
  name : ∃ text, later.name = earlier.name ++ text

theorem ContinuesAs.refl (slot : Slot) : slot.ContinuesAs slot :=
  ⟨rfl, rfl, rfl, "", String.append_empty.symm⟩

theorem ContinuesAs.trans {a b c : Slot} (hab : a.ContinuesAs b) (hbc : b.ContinuesAs c) :
    a.ContinuesAs c := by
  obtain ⟨first, hf⟩ := hab.name
  obtain ⟨second, hs⟩ := hbc.name
  refine ⟨hbc.id.trans hab.id, hbc.displacement.trans hab.displacement, hbc.size.trans hab.size,
    first ++ second, ?_⟩
  rw [hs, hf, String.append_assoc]

def extend (d : Int64) (text : String) (slot : Slot) : Slot :=
  if slot.displacement = d then { slot with name := slot.name ++ text } else slot

variable (d : Int64) (text : String) (slot : Slot)

theorem extend_id : (slot.extend d text).id = slot.id := by
  rw [extend]
  split <;> rfl

theorem extend_displacement : (slot.extend d text).displacement = slot.displacement := by
  rw [extend]
  split <;> rfl

theorem extend_name :
    (slot.extend d text).name = slot.name ++ if slot.displacement = d then text else "" := by
  rw [extend]
  split
  · rfl
  · exact String.append_empty.symm

theorem extend_empty : slot.extend d "" = slot := by
  rw [extend]
  split
  · rw [String.append_empty]
  · rfl

theorem continuesAs_extend : slot.ContinuesAs (slot.extend d text) := by
  refine ⟨extend_id d text slot, extend_displacement d text slot, ?_, _, extend_name d text slot⟩
  rw [extend]
  split <;> rfl

end Slot

namespace SlotTable

/-- The slots of the table are numbered in their order, and the names of all of them start with the
stem and the number. -/
structure Numbered (stem : String) (t : SlotTable) : Prop where
  stem_eq : t.stem = stem
  ids : t.slots.map Slot.id = List.range' 1 t.size
  distinct : (t.slots.map Slot.displacement).Nodup
  names : ∀ slot ∈ t.slots, ∃ text, slot.name = stem ++ Nat.repr slot.id ++ text

/-- No slot is lost on the way to the later table, and none has changed its place. -/
def ContinuesAs (earlier later : SlotTable) : Prop :=
  ∀ (k : Nat) (slot : Slot), earlier.slots[k]? = some slot →
    ∃ next, later.slots[k]? = some next ∧ slot.ContinuesAs next

theorem ContinuesAs.refl (t : SlotTable) : t.ContinuesAs t :=
  fun _ slot hs => ⟨slot, hs, .refl slot⟩

theorem ContinuesAs.trans {t u v : SlotTable} (htu : t.ContinuesAs u) (huv : u.ContinuesAs v) :
    t.ContinuesAs v := by
  intro k a ha
  obtain ⟨b, hb, hab⟩ := htu k a ha
  obtain ⟨c, hc, hbc⟩ := huv k b hb
  exact ⟨c, hc, hab.trans hbc⟩

theorem numbered_empty (stem : String) : (empty stem).Numbered stem where
  stem_eq := rfl
  ids := rfl
  distinct := List.nodup_nil
  names := fun _ hs => absurd hs List.not_mem_nil

theorem Numbered.get?_eq_some_iff {stem : String} {t : SlotTable} (h : t.Numbered stem) (d : Int64)
    (slot : Slot) : t.get? d = some slot ↔ slot ∈ t.slots ∧ slot.displacement = d := by
  constructor
  · intro hg
    exact ⟨List.mem_of_find?_eq_some hg, by simpa using List.find?_some hg⟩
  · rintro ⟨hm, hd⟩
    have hc : t.contains d = true := (contains_iff t d).mpr ⟨slot, hm, hd⟩
    obtain ⟨found, hf⟩ := Option.isSome_iff_exists.mp hc
    have he : found.displacement = d := by simpa using List.find?_some hf
    have hs : found = slot :=
      List.inj_on_of_nodup_map h.distinct (List.mem_of_find?_eq_some hf) hm (he.trans hd.symm)
    rw [hf, hs]

theorem appendSuffix_eq_map (t : SlotTable) (d : Int64) (suffix : String) :
    t.appendSuffix d suffix =
      ⟨t.stem, t.slots.map (Slot.extend d (if t.takesSuffix d suffix then suffix else ""))⟩ := by
  rw [appendSuffix]
  split
  · rfl
  · have he : Slot.extend d "" = id := funext (Slot.extend_empty d)
    rw [he, List.map_id]

theorem continuesAs_discover (t : SlotTable) (d : Int64) (size : UInt8) :
    t.ContinuesAs (t.discover d size) := by
  by_cases hd : t.contains d = true
  · rw [discover_of_contains t d size hd]
    exact .refl t
  · rw [discover_of_not_contains t d size hd]
    intro k slot hs
    obtain ⟨hk, -⟩ := List.getElem?_eq_some_iff.mp hs
    refine ⟨slot, ?_, .refl slot⟩
    rw [List.getElem?_append_left hk, hs]

theorem continuesAs_appendSuffix (t : SlotTable) (d : Int64) (suffix : String) :
    t.ContinuesAs (t.appendSuffix d suffix) := by
  rw [appendSuffix_eq_map]
  generalize (if t.takesSuffix d suffix then suffix else "") = text
  intro k slot hs
  refine ⟨slot.extend d text, ?_, Slot.continuesAs_extend d text slot⟩
  rw [List.getElem?_map, hs, Option.map_some]

namespace Numbered

variable {stem : String} {t : SlotTable} (h : t.Numbered stem) (d : Int64)
include h

theorem discover (size : UInt8) : (t.discover d size).Numbered stem := by
  by_cases hd : t.contains d = true
  · rwa [discover_of_contains t d size hd]
  · have hn : d ∉ t.slots.map Slot.displacement := by
      intro hm
      obtain ⟨slot, hs, he⟩ := List.mem_map.mp hm
      exact hd ((contains_iff t d).mpr ⟨slot, hs, he⟩)
    rw [discover_of_not_contains t d size hd]
    constructor
    · exact h.stem_eq
    · have hl : SlotTable.size ⟨t.stem, t.slots ++ [t.fresh d size]⟩ = t.size + 1 :=
        List.length_append
      rw [hl, List.range'_1_concat, Nat.add_comm 1, List.map_append, h.ids]
      rfl
    · rw [List.map_append, List.map_singleton, ← List.concat_eq_append]
      exact h.distinct.concat hn
    · intro slot hs
      obtain hs | hs := List.mem_append.mp hs
      · exact h.names slot hs
      · refine ⟨"", ?_⟩
        rw [List.mem_singleton.mp hs, String.append_empty, ← h.stem_eq]
        rfl

theorem appendSuffix (suffix : String) : (t.appendSuffix d suffix).Numbered stem := by
  rw [appendSuffix_eq_map]
  generalize (if t.takesSuffix d suffix then suffix else "") = text
  constructor
  · exact h.stem_eq
  · have hi : Slot.id ∘ Slot.extend d text = Slot.id := funext (Slot.extend_id d text)
    rw [List.map_map, hi, h.ids, size, size, List.length_map]
  · have hd : Slot.displacement ∘ Slot.extend d text = Slot.displacement :=
      funext (Slot.extend_displacement d text)
    rw [List.map_map, hd]
    exact h.distinct
  · intro slot hs
    obtain ⟨old, ho, rfl⟩ := List.mem_map.mp hs
    obtain ⟨first, hf⟩ := h.names old ho
    refine ⟨first ++ if old.displacement = d then text else "", ?_⟩
    rw [Slot.extend_name, Slot.extend_id, hf, String.append_assoc]

end Numbered

theorem continuesAs_discoverAll (t : SlotTable) (as : List (Int64 × UInt8)) :
    t.ContinuesAs (t.discoverAll as) := by
  apply List.foldlRecOn
  · exact .refl t
  · intro u hu a _
    exact hu.trans (continuesAs_discover u a.1 a.2)

theorem Numbered.discoverAll {stem : String} {t : SlotTable} (h : t.Numbered stem)
    (as : List (Int64 × UInt8)) : (t.discoverAll as).Numbered stem := by
  apply List.foldlRecOn
  · exact h
  · intro u hu a _
    exact hu.discover a.1 a.2

end SlotTable

namespace Canary

variable (settings : Settings) (symbols : Symbols) (s : Stream)

/-- The search for the canary changes a table as a suffix does, if at all. -/
theorem recover_induction {p : SlotTable → Prop}
    (hp : ∀ t d suffix, p t → p (t.appendSuffix d suffix)) (t : SlotTable) (ht : p t) :
    p (recover settings symbols s t).1 := by
  cases h : locate? settings symbols s t with
  | none => rwa [recover_of_locate?_eq_none settings symbols s t h]
  | some site =>
    rw [recover_of_locate?_eq_some settings symbols s t site h]
    exact hp t site.displacement settings.suffix ht

end Canary

end Pseudocode
