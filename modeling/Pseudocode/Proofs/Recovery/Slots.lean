import Pseudocode.Recovery.Slots

namespace Pseudocode

theorem foldl_eq_self {α β : Type} (f : α → β → α) (a : α) (bs : List β)
    (h : ∀ b ∈ bs, f a b = a) : bs.foldl f a = a := by
  induction bs with
  | nil => rfl
  | cons b bs ih =>
    rw [List.foldl_cons, h b List.mem_cons_self]
    exact ih fun c hc => h c (List.mem_cons_of_mem b hc)

namespace SlotTable

theorem contains_iff (t : SlotTable) (d : Int64) :
    t.contains d = true ↔ ∃ slot ∈ t.slots, slot.displacement = d := by
  simp [contains, get?, List.find?_isSome]

theorem exists_nameOf? (t : SlotTable) (d : Int64) (h : t.contains d = true) :
    ∃ slot ∈ t.slots, slot.displacement = d ∧ t.nameOf? d = some slot.name := by
  obtain ⟨slot, hs⟩ := Option.isSome_iff_exists.mp h
  have hd : slot.displacement = d := by simpa using List.find?_some hs
  exact ⟨slot, List.mem_of_find?_eq_some hs, hd, by rw [nameOf?, hs, Option.map_some]⟩

theorem not_contains_empty (stem : String) (d : Int64) : (empty stem).contains d = false := rfl

theorem discover_of_contains (t : SlotTable) (d : Int64) (size : UInt8)
    (h : t.contains d = true) : t.discover d size = t := by
  simp [discover, newId?, h]

def fresh (t : SlotTable) (d : Int64) (size : UInt8) : Slot :=
  ⟨t.size + 1, d, t.stem ++ Nat.repr (t.size + 1), size⟩

theorem discover_of_not_contains (t : SlotTable) (d : Int64) (size : UInt8)
    (h : ¬ t.contains d = true) :
    t.discover d size = ⟨t.stem, t.slots ++ [t.fresh d size]⟩ := by
  have hn : t.newId? d = some (t.size + 1) := by rw [newId?, if_neg h]
  rw [discover, hn]
  rfl

theorem contains_discover (t : SlotTable) (d e : Int64) (size : UInt8) :
    (t.discover d size).contains e = true ↔ t.contains e = true ∨ e = d := by
  by_cases hd : t.contains d = true
  · rw [discover_of_contains t d size hd]
    constructor
    · exact Or.inl
    · rintro (he | rfl)
      · exact he
      · exact hd
  · rw [discover_of_not_contains t d size hd, contains_iff, contains_iff]
    simp only [List.mem_append, List.mem_singleton, or_and_right, exists_or, exists_eq_left, fresh]
    rw [eq_comm (a := d)]

theorem discoverAll_append (t : SlotTable) (as bs : List (Int64 × UInt8)) :
    t.discoverAll (as ++ bs) = (t.discoverAll as).discoverAll bs :=
  List.foldl_append

theorem discoverAll_of_contains (t : SlotTable) (as : List (Int64 × UInt8))
    (h : ∀ a ∈ as, t.contains a.1 = true) : t.discoverAll as = t := by
  apply foldl_eq_self
  intro a ha
  exact discover_of_contains t a.1 a.2 (h a ha)

theorem contains_discoverAll (t : SlotTable) (as : List (Int64 × UInt8)) (d : Int64) :
    (t.discoverAll as).contains d = true ↔
      t.contains d = true ∨ ∃ size, (d, size) ∈ as := by
  induction as generalizing t with
  | nil => simp [discoverAll]
  | cons a as ih =>
    obtain ⟨e, size⟩ := a
    have hr := ih (t.discover e size)
    rw [discoverAll] at hr ⊢
    rw [List.foldl_cons, hr, contains_discover]
    simp only [List.mem_cons, Prod.mk.injEq, exists_or, exists_and_left, exists_eq, and_true,
      or_assoc]

theorem get?_appendSuffix (t : SlotTable) (d e : Int64) (suffix : String) :
    (t.appendSuffix d suffix).get? e =
      (t.get? e).map fun slot =>
        if e = d ∧ t.takesSuffix d suffix = true then { slot with name := slot.name ++ suffix }
        else slot := by
  by_cases ht : t.takesSuffix d suffix = true
  · rw [appendSuffix, if_pos ht, get?, get?, List.find?_map]
    have hp : ((fun slot : Slot => decide (slot.displacement = e)) ∘ fun slot : Slot =>
        if slot.displacement = d then { slot with name := slot.name ++ suffix } else slot) =
        fun slot => decide (slot.displacement = e) := by
      funext slot
      by_cases hs : slot.displacement = d <;> simp [hs]
    rw [hp]
    apply Option.map_congr
    intro slot hs
    have he : slot.displacement = e := by simpa using List.find?_some hs
    simp [he, ht]
  · rw [appendSuffix, if_neg ht]
    simp [ht]

theorem contains_appendSuffix (t : SlotTable) (d e : Int64) (suffix : String) :
    (t.appendSuffix d suffix).contains e = t.contains e := by
  rw [contains, contains, get?_appendSuffix, Option.isSome_map]

theorem takesSuffix_iff (t : SlotTable) (d : Int64) (suffix : String) :
    t.takesSuffix d suffix = true ↔
      ∃ name, t.nameOf? d = some name ∧ ¬ suffix.toList <:+ name.toList := by
  simp [takesSuffix, Option.any_eq_true, ← List.isSuffixOf_iff_suffix]

/-- The name under which a slot goes on: with the suffix, but not with the suffix twice. -/
theorem nameOf?_appendSuffix (t : SlotTable) (d : Int64) (suffix : String) :
    (t.appendSuffix d suffix).nameOf? d =
      (t.nameOf? d).map fun name =>
        if suffix.toList <:+ name.toList then name else name ++ suffix := by
  rw [nameOf?, nameOf?, get?_appendSuffix, Option.map_map, Option.map_map]
  apply Option.map_congr
  intro slot hs
  have ht : t.takesSuffix d suffix = true ↔ ¬ suffix.toList <:+ slot.name.toList := by
    simp [takesSuffix_iff, nameOf?, hs]
  by_cases h : suffix.toList <:+ slot.name.toList
  · have hf : ¬ t.takesSuffix d suffix = true := fun hc => ht.mp hc h
    simp [h, hf]
  · simp [h, ht.mpr h]

theorem not_takesSuffix_appendSuffix (t : SlotTable) (d : Int64) (suffix : String) :
    ¬ (t.appendSuffix d suffix).takesSuffix d suffix = true := by
  rw [takesSuffix_iff, nameOf?_appendSuffix]
  rintro ⟨name, hn, hs⟩
  obtain ⟨old, -, rfl⟩ := Option.map_eq_some_iff.mp hn
  apply hs
  by_cases h : suffix.toList <:+ old.toList
  · rwa [if_pos h]
  · rw [if_neg h, String.toList_append]
    exact List.suffix_append _ _

theorem appendSuffix_appendSuffix (t : SlotTable) (d : Int64) (suffix : String) :
    (t.appendSuffix d suffix).appendSuffix d suffix = t.appendSuffix d suffix := by
  rw [appendSuffix, if_neg (not_takesSuffix_appendSuffix t d suffix)]

end SlotTable

end Pseudocode
