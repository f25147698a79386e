import Mathlib.Data.List.Induction
import Mathlib.Data.List.Perm.Basic
import Pseudocode.Proofs.Recovery.Numbering
import Pseudocode.Proofs.Table

namespace Pseudocode

namespace SlotTable

theorem agrees_iff (t u : SlotTable) :
    t.agrees u = true ↔
      t.stem = u.stem ∧ t.size = u.size ∧
        ∀ slot ∈ t.slots, u.get? slot.displacement = some slot := by
  simp [agrees, and_assoc]

namespace Numbered

section

variable {stem : String} {t : SlotTable} (h : t.Numbered stem)
include h

theorem nodup_slots : t.slots.Nodup :=
  List.Nodup.of_map Slot.displacement h.distinct

theorem mem_iff_get? (slot : Slot) :
    slot ∈ t.slots ↔ t.get? slot.displacement = some slot := by
  rw [h.get?_eq_some_iff]
  exact (and_iff_left rfl).symm

theorem pairwise_id : t.slots.Pairwise fun a b => a.id < b.id := by
  have hi : (t.slots.map Slot.id).Pairwise (· < ·) := by
    rw [h.ids]
    exact List.pairwise_lt_range'
  exact List.pairwise_map.mp hi

end

variable {stem stem' : String} {t u : SlotTable} (ht : t.Numbered stem) (hu : u.Numbered stem')
include ht hu

theorem agrees_iff_perm : t.agrees u = true ↔ t.stem = u.stem ∧ t.slots.Perm u.slots := by
  rw [agrees_iff]
  refine and_congr_right fun _ => ?_
  constructor
  · rintro ⟨hs, hg⟩
    have hsub : t.slots ⊆ u.slots := by
      intro slot hm
      exact (hu.mem_iff_get? slot).mpr (hg slot hm)
    -- No slot stands twice, so a table of the same size has no room for another one.
    apply (List.subperm_of_subset ht.nodup_slots hsub).perm_of_length_le
    exact Nat.le_of_eq hs.symm
  · intro hp
    refine ⟨hp.length_eq, ?_⟩
    intro slot hm
    exact (hu.mem_iff_get? slot).mp (hp.mem_iff.mp hm)

theorem perm_iff_get? : t.slots.Perm u.slots ↔ ∀ d, t.get? d = u.get? d := by
  constructor
  · intro hp d
    apply Option.ext
    intro slot
    rw [ht.get?_eq_some_iff, hu.get?_eq_some_iff, hp.mem_iff]
  · intro hg
    apply (List.perm_ext_iff_of_nodup ht.nodup_slots hu.nodup_slots).mpr
    intro slot
    rw [ht.mem_iff_get?, hu.mem_iff_get?, hg]

/-- The order of the slots can be told from their numbers. -/
theorem perm_iff_eq : t.slots.Perm u.slots ↔ t.slots = u.slots := by
  constructor
  · apply List.Perm.eq_of_pairwise _ ht.pairwise_id hu.pairwise_id
    intro a b _ _ hab hba
    exact absurd hab (Nat.lt_asymm hba)
  · intro he
    rw [he]

end Numbered

/-- Tables whose slots are not numbered in their order may agree and yet list them differently. -/
example :
    agrees ⟨"var", [⟨1, -8, "var1", 4⟩, ⟨2, -16, "var2", 8⟩]⟩
      ⟨"var", [⟨2, -16, "var2", 8⟩, ⟨1, -8, "var1", 4⟩]⟩ = true := by decide

inductive Edit
  | discover (displacement : Int64) (size : UInt8)
  | appendSuffix (displacement : Int64) (suffix : String)

def Edit.discovered? : Edit → Option Int64
  | .discover displacement _ => some displacement
  | .appendSuffix .. => none

def edit (t : SlotTable) : Edit → SlotTable
  | .discover displacement size => t.discover displacement size
  | .appendSuffix displacement suffix => t.appendSuffix displacement suffix

def ofEdits (stem : String) (edits : List Edit) : SlotTable :=
  edits.foldl edit (empty stem)

/-- The displacements that edits discover, in the order in which they do so first. -/
def discoveries (edits : List Edit) : List Int64 :=
  (edits.filterMap Edit.discovered?).eraseDups

theorem Numbered.edit {stem : String} {t : SlotTable} (h : t.Numbered stem) (e : Edit) :
    (t.edit e).Numbered stem := by
  cases e with
  | discover d size => exact h.discover d size
  | appendSuffix d suffix => exact h.appendSuffix d suffix

theorem numbered_ofEdits (stem : String) (edits : List Edit) :
    (ofEdits stem edits).Numbered stem := by
  apply List.foldlRecOn
  · exact numbered_empty stem
  · intro t ht e _
    exact ht.edit e

theorem displacements_discover (t : SlotTable) (d : Int64) (size : UInt8) :
    (t.discover d size).slots.map Slot.displacement =
      if d ∈ t.slots.map Slot.displacement then t.slots.map Slot.displacement
      else t.slots.map Slot.displacement ++ [d] := by
  have hm : d ∈ t.slots.map Slot.displacement ↔ t.contains d = true := by
    rw [contains_iff, List.mem_map]
  by_cases hd : t.contains d = true
  · rw [discover_of_contains t d size hd, if_pos (hm.mpr hd)]
  · rw [discover_of_not_contains t d size hd, if_neg (mt hm.mp hd), List.map_append]
    rfl

theorem displacements_appendSuffix (t : SlotTable) (d : Int64) (suffix : String) :
    (t.appendSuffix d suffix).slots.map Slot.displacement = t.slots.map Slot.displacement := by
  rw [appendSuffix_eq_map, List.map_map]
  congr 1
  funext slot
  exact Slot.extend_displacement d _ slot

theorem displacements_ofEdits (stem : String) (edits : List Edit) :
    (ofEdits stem edits).slots.map Slot.displacement = discoveries edits := by
  induction edits using List.reverseRecOn with
  | nil => rfl
  | append_singleton edits e ih =>
    have hs : ofEdits stem (edits ++ [e]) = (ofEdits stem edits).edit e :=
      List.foldl_concat edit (empty stem) e edits
    rw [hs, discoveries, List.filterMap_append]
    cases e with
    | discover d size =>
      have he : [Edit.discover d size].filterMap Edit.discovered? = [d] := rfl
      rw [edit, displacements_discover, ih, he, eraseDups_concat]
      simp only [discoveries, List.mem_eraseDups]
    | appendSuffix d suffix =>
      have he : [Edit.appendSuffix d suffix].filterMap Edit.discovered? = [] := rfl
      rw [edit, displacements_appendSuffix, ih, he, List.append_nil, discoveries]

/-- Whatever the edits were, two tables agree if and only if they have the same stem and the same
slot at every displacement, and they do if and only if they have the same stem and list the same
slots in the same order. In particular, they never agree if their displacements were discovered in
different orders. -/
theorem agrees_ofEdits_iff (stem stem' : String) (edits edits' : List Edit) :
    ((ofEdits stem edits).agrees (ofEdits stem' edits') = true ↔
      (ofEdits stem edits).stem = (ofEdits stem' edits').stem ∧
        ∀ d, (ofEdits stem edits).get? d = (ofEdits stem' edits').get? d) ∧
    ((ofEdits stem edits).agrees (ofEdits stem' edits') = true ↔
      (ofEdits stem edits).stem = (ofEdits stem' edits').stem ∧
        (ofEdits stem edits).slots = (ofEdits stem' edits').slots) ∧
    (discoveries edits ≠ discoveries edits' →
      (ofEdits stem edits).agrees (ofEdits stem' edits') = false) := by
  have ht := numbered_ofEdits stem edits
  have hu := numbered_ofEdits stem' edits'
  have ha := ht.agrees_iff_perm hu
  have he := ha.trans (and_congr_right fun _ => ht.perm_iff_eq hu)
  refine ⟨ha.trans (and_congr_right fun _ => ht.perm_iff_get? hu), he, ?_⟩
  intro hne
  rw [← Bool.not_eq_true, he]
  rintro ⟨-, hs⟩
  apply hne
  rw [← displacements_ofEdits stem, ← displacements_ofEdits stem', hs]

theorem agrees_ofEdits_iff_swapped :
    ((ofEdits "var" [.discover (-8) 4, .discover (-16) 8, .appendSuffix (-8) "_canary"]).slots =
      (ofEdits "var" [.discover (-8) 4, .appendSuffix (-8) "_canary", .discover (-16) 8,
        .discover (-8) 8, .appendSuffix (-8) "_canary"]).slots) ∧
    (discoveries [.discover (-8) 4, .discover (-16) 4]).Perm
      (discoveries [.discover (-16) 4, .discover (-8) 4]) ∧
    discoveries [.discover (-8) 4, .discover (-16) 4] ≠
      discoveries [.discover (-16) 4, .discover (-8) 4] ∧
    (ofEdits "var" [.discover (-8) 4, .discover (-16) 4]).agrees
      (ofEdits "var" [.discover (-16) 4, .discover (-8) 4]) = false := by
  have ha : (ofEdits "var" [.discover (-8) 4, .discover (-16) 8,
      .appendSuffix (-8) "_canary"]).agrees
      (ofEdits "var" [.discover (-8) 4, .appendSuffix (-8) "_canary", .discover (-16) 8,
        .discover (-8) 8, .appendSuffix (-8) "_canary"]) = true := by decide
  have hne : discoveries [.discover (-8) 4, .discover (-16) 4] ≠
      discoveries [.discover (-16) 4, .discover (-8) 4] := by decide
  exact ⟨((agrees_ofEdits_iff _ _ _ _).2.1.mp ha).2, by decide, hne,
    (agrees_ofEdits_iff _ _ _ _).2.2 hne⟩

end SlotTable

end Pseudocode
