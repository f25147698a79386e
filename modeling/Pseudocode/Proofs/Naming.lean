import Pseudocode.Proofs.Locals
import Pseudocode.Proofs.Recovery.Numbering

namespace Pseudocode

namespace SlotTable

def Plain (t : SlotTable) : Prop :=
  ∀ slot ∈ t.slots, slot.name = t.stem ++ Nat.repr slot.id

theorem Plain.discover {t : SlotTable} (h : t.Plain) (d : Int64) (size : UInt8) :
    (t.discover d size).Plain := by
  by_cases hd : t.contains d = true
  · rwa [discover_of_contains t d size hd]
  · rw [discover_of_not_contains t d size hd]
    intro slot hs
    obtain hs | hs := List.mem_append.mp hs
    · exact h slot hs
    · rw [List.mem_singleton.mp hs]
      rfl

theorem Plain.discoverAll {t : SlotTable} (h : t.Plain) (as : List (Int64 × UInt8)) :
    (t.discoverAll as).Plain := by
  apply List.foldlRecOn
  · exact h
  · intro u hu a _
    exact hu.discover a.1 a.2

/-- How the slots of a table are named if one of them may be the canary. -/
structure Naming (stem suffix : String) (t : SlotTable) (canary : Option Canary.Match) :
    Prop where
  distinct : (t.slots.map Slot.name).Nodup
  plain : ∀ slot ∈ t.slots, (∀ m, canary = some m → slot.displacement ≠ m.site.displacement) →
    slot.name = stem ++ Nat.repr slot.id
  canary : ∀ m, canary = some m → ∃ slot ∈ t.slots, slot.displacement = m.site.displacement ∧
    slot.name = stem ++ Nat.repr slot.id ++ suffix ∧ m.slot = slot.name ∧
    ∀ other ∈ t.slots, other.displacement = m.site.displacement → other = slot

theorem eq_of_append_repr_eq {stem : String} {m n : Nat}
    (h : stem ++ Nat.repr m = stem ++ Nat.repr n) : m = n :=
  eq_of_repr_eq ((String.append_right_inj stem).mp h)

section

variable {suffix : String} {x : Char} (hx : suffix.toList.getLast? = some x)
  (hd : x.isDigit = false)
include hx hd

theorem not_isSuffix_repr (stem : String) (n : Nat) :
    ¬ suffix.toList <:+ (stem ++ Nat.repr n).toList := by
  rintro ⟨front, hf⟩
  rw [String.toList_append, Nat.toList_repr] at hf
  -- The two texts have the same last character, which is a digit on one side only.
  have hl := congrArg List.getLast? hf
  rw [List.getLast?_append, hx, Option.some_or,
    List.getLast?_append_of_ne_nil _ Nat.toDigits_ne_nil] at hl
  have hm : x ∈ Nat.toDigits 10 n := List.mem_of_getLast? hl.symm
  rw [Nat.isDigit_of_mem_toDigits (by decide) (by decide) hm] at hd
  cases hd

theorem repr_append_ne (stem : String) (m n : Nat) :
    stem ++ Nat.repr m ++ suffix ≠ stem ++ Nat.repr n := by
  intro h
  apply not_isSuffix_repr hx hd stem n
  rw [← h, String.toList_append]
  exact List.suffix_append _ _

theorem nodup_names {stem : String} {t : SlotTable} (h : t.Numbered stem)
    (hn : ∀ slot ∈ t.slots, slot.name = stem ++ Nat.repr slot.id ∨
      slot.name = stem ++ Nat.repr slot.id ++ suffix) : (t.slots.map Slot.name).Nodup := by
  have hi : (t.slots.map Slot.id).Nodup := by
    rw [h.ids]
    exact List.nodup_range'
  rw [List.Nodup, List.pairwise_map] at hi ⊢
  apply hi.imp_of_mem
  intro a b ha hb hne he
  apply hne
  obtain ha | ha := hn a ha
  · obtain hb | hb := hn b hb
    · rw [ha, hb] at he
      exact eq_of_append_repr_eq he
    · rw [ha, hb] at he
      exact absurd he.symm (repr_append_ne hx hd stem b.id a.id)
  · obtain hb | hb := hn b hb
    · rw [ha, hb] at he
      exact absurd he (repr_append_ne hx hd stem a.id b.id)
    · rw [ha, hb, String.append_left_inj] at he
      exact eq_of_append_repr_eq he

variable {stem : String} {t : SlotTable} (h : t.Numbered stem) (hp : t.Plain)
include h hp

theorem naming_of_plain : t.Naming stem suffix none where
  distinct := by
    apply nodup_names hx hd h
    intro slot hs
    rw [hp slot hs, h.stem_eq]
    exact .inl rfl
  plain slot hs _ := by rw [hp slot hs, h.stem_eq]
  canary _ hm := by cases hm

/-- The suffix comes behind the number of the one slot that it is for. -/
theorem naming_appendSuffix {site : Canary.Site} (hc : t.contains site.displacement = true) :
    ∃ slot, (t.appendSuffix site.displacement suffix).get? site.displacement = some slot ∧
      (t.appendSuffix site.displacement suffix).Naming stem suffix (some ⟨site, slot.name⟩) := by
  have hs : t.takesSuffix site.displacement suffix = true := by
    obtain ⟨slot, hm, -, hn⟩ := exists_nameOf? t site.displacement hc
    refine (takesSuffix_iff t site.displacement suffix).mpr ⟨slot.name, hn, ?_⟩
    rw [hp slot hm]
    exact not_isSuffix_repr hx hd t.stem slot.id
  have hu := h.appendSuffix site.displacement suffix
  have hn : ∀ slot ∈ (t.appendSuffix site.displacement suffix).slots,
      slot.name = stem ++ Nat.repr slot.id ++
        if slot.displacement = site.displacement then suffix else "" := by
    rw [appendSuffix_eq_map, hs, if_pos rfl]
    intro slot hm
    obtain ⟨old, ho, rfl⟩ := List.mem_map.mp hm
    rw [Slot.extend_name, Slot.extend_id, Slot.extend_displacement, hp old ho, h.stem_eq]
  have hm : (t.appendSuffix site.displacement suffix).contains site.displacement = true := by
    rw [contains_appendSuffix]
    exact hc
  obtain ⟨slot, hg⟩ := Option.isSome_iff_exists.mp hm
  obtain ⟨hmem, he⟩ := (hu.get?_eq_some_iff _ _).mp hg
  refine ⟨slot, hg, ?_, ?_, ?_⟩
  · apply nodup_names hx hd hu
    intro a ha
    rw [hn a ha]
    split
    · exact .inr rfl
    · exact .inl String.append_empty
  · intro a ha hne
    rw [hn a ha, if_neg (hne _ rfl), String.append_empty]
  · rintro m hm
    cases hm
    refine ⟨slot, hmem, he, ?_, rfl, ?_⟩
    · rw [hn slot hmem, if_pos he]
    · intro other ho hd
      have hg' := (hu.get?_eq_some_iff _ _).mpr ⟨ho, hd⟩
      rw [hg] at hg'
      exact (Option.some.inj hg').symm

end

end SlotTable

namespace Canary

variable (settings : Settings) (symbols : Symbols) (s : Stream)

theorem contains_of_locate? {t : SlotTable} {site : Site}
    (h : locate? settings symbols s t = some site) : t.contains site.displacement = true := by
  obtain ⟨guard, -, h⟩ := Option.bind_eq_some_iff.mp h
  obtain ⟨position, -, h⟩ := Option.bind_eq_some_iff.mp h
  obtain ⟨call, -, h⟩ := Option.bind_eq_some_iff.mp h
  obtain ⟨i, -, h⟩ := List.exists_of_findSome?_eq_some h
  obtain ⟨d, hm, rfl⟩ := Option.map_eq_some_iff.mp h
  rw [slotMoved?] at hm
  split at hm
  · obtain ⟨position, -, hp⟩ := List.exists_of_findSome?_eq_some hm
    exact (Option.filter_eq_some_iff.mp hp).2
  · cases hm

theorem recover_empty (stem : String) :
    recover settings symbols s (.empty stem) = (.empty stem, none) := by
  apply recover_of_locate?_eq_none
  rw [Option.eq_none_iff_forall_ne_some]
  intro site h
  have hc := contains_of_locate? settings symbols s h
  rw [SlotTable.not_contains_empty] at hc
  cases hc

theorem naming_recover {stem : String} {t : SlotTable} {x : Char}
    (hx : settings.suffix.toList.getLast? = some x) (hd : x.isDigit = false)
    (h : t.Numbered stem) (hp : t.Plain) :
    (recover settings symbols s t).1.Naming stem settings.suffix
      (recover settings symbols s t).2 := by
  cases hl : locate? settings symbols s t with
  | none =>
    rw [recover_of_locate?_eq_none settings symbols s t hl]
    exact SlotTable.naming_of_plain hx hd h hp
  | some site =>
    have hc := contains_of_locate? settings symbols s hl
    obtain ⟨slot, hg, hn⟩ := SlotTable.naming_appendSuffix hx hd h hp hc
    rw [recover_of_locate?_eq_some settings symbols s t site hl, SlotTable.nameOf?, hg]
    exact hn

end Canary

namespace Config

variable (c : Config) (symbols : Symbols) (s : Stream) (t : Tree)

theorem numbered_named : (c.named s t).Numbered c.stem := by
  rw [named]
  split
  · exact (SlotTable.numbered_empty c.stem).discoverAll _
  · exact SlotTable.numbered_empty c.stem

theorem plain_named : (c.named s t).Plain := by
  have he : (SlotTable.empty c.stem).Plain := fun _ hs => absurd hs List.not_mem_nil
  rw [named]
  split
  · exact he.discoverAll _
  · exact he

/-- If the suffix of the canary does not end in a digit, no two slots of a function have the same
name: every slot is named by the stem and its number, and only the canary has the suffix behind
them. Without the search for slots there is neither a slot nor a canary. -/
theorem naming_decompile {x : Char} (hx : c.canary.suffix.toList.getLast? = some x)
    (hd : x.isDigit = false) :
    (c.decompile symbols s t).findings.slots.Naming c.stem c.canary.suffix
      (c.decompile symbols s t).canary ∧
    (c.runs .stackSlots = false → (c.decompile symbols s t).findings.slots.slots = [] ∧
      (c.decompile symbols s t).canary = none) := by
  have h := slots_canary_decompile c symbols s t
  have hn := numbered_named c s (c.decompile symbols s t).tree
  have hp := plain_named c s (c.decompile symbols s t).tree
  constructor
  · split at h
    · obtain ⟨hs, hc⟩ := Prod.mk.inj h
      rw [hs, hc]
      exact Canary.naming_recover c.canary symbols s hx hd hn hp
    · obtain ⟨hs, hc⟩ := Prod.mk.inj h
      rw [hs, hc]
      exact SlotTable.naming_of_plain hx hd hn hp
  · intro hr
    have he : ∀ u, c.named s u = .empty c.stem := by
      intro u
      rw [named, hr]
      rfl
    rw [he, Canary.recover_empty, ite_self] at h
    obtain ⟨hs, hc⟩ := Prod.mk.inj h
    rw [hs, hc]
    exact ⟨rfl, rfl⟩

theorem naming_decompile_guarded :
    default.canary.suffix.toList.getLast? = some 'y' ∧ 'y'.isDigit = false ∧
    (default.decompile guardedImage.symbols guarded guardedTree).canary =
      some ⟨⟨0x100a, 0x1000, -8⟩, "var1_canary"⟩ ∧
    ((default.decompile guardedImage.symbols guarded guardedTree).findings.slots.slots.map
      Slot.name).Nodup ∧
    ∃ slot ∈ (default.decompile guardedImage.symbols guarded guardedTree).findings.slots.slots,
      slot.displacement = -8 ∧ "var1_canary" = slot.name := by
  have hx : default.canary.suffix.toList.getLast? = some 'y' := by decide
  have hd : 'y'.isDigit = false := by decide
  have hc : (default.decompile guardedImage.symbols guarded guardedTree).canary =
      some ⟨⟨0x100a, 0x1000, -8⟩, "var1_canary"⟩ := by decide
  have h := (naming_decompile default guardedImage.symbols guarded guardedTree hx hd).1
  obtain ⟨slot, hs, he, -, hn, -⟩ := h.canary _ hc
  exact ⟨hx, hd, hc, h.distinct, slot, hs, he, hn⟩

end Config

end Pseudocode
