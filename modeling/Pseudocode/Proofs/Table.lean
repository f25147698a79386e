import Mathlib.Data.List.Nodup
import Pseudocode.Table

namespace Pseudocode

/-- A new member comes last, and one that is there already stays where it came first. -/
theorem eraseDups_concat {α : Type} [DecidableEq α] (as : List α) (a : α) :
    (as ++ [a]).eraseDups = if a ∈ as then as.eraseDups else as.eraseDups ++ [a] := by
  rw [List.eraseDups_append]
  by_cases h : a ∈ as
  · simp [List.removeAll, h]
  · simp [List.removeAll, h, List.eraseDups_cons]

namespace Table

variable {α β : Type} [DecidableEq α]

theorem find?_eq_some_iff {es : List (α × β)} (hk : (es.map Prod.fst).Nodup) (k : α) (v : β) :
    find? k es = some v ↔ (k, v) ∈ es := by
  induction es with
  | nil => simp [find?]
  | cons e es ih =>
    obtain ⟨key, value⟩ := e
    obtain ⟨hn, hr⟩ := List.nodup_cons.mp hk
    by_cases he : key = k
    · subst he
      have hm : (key, v) ∉ es := fun hm => hn (List.mem_map.mpr ⟨_, hm, rfl⟩)
      simp [find?, hm, eq_comm]
    · simp [find?, he, ih hr, Ne.symm he]

theorem get?_erase (t : Table α β) (key k : α) :
    (t.erase key).get? k = if k = key then none else t.get? k := by
  rw [get?, get?, erase]
  induction t.entries with
  | nil => simp [find?]
  | cons e es ih =>
    obtain ⟨k', v⟩ := e
    by_cases he : k' = key
    · rw [List.filter_cons_of_neg (by simp [he]), ih, find?]
      by_cases hk : k = key
      · simp [hk]
      · simp [he, hk, Ne.symm hk]
    · rw [List.filter_cons_of_pos (by simp [he]), find?, find?, ih]
      by_cases hk : k' = k
      · subst hk
        simp [he]
      · simp [hk]

theorem put_of_not_mem {key : α} {es : List (α × β)} (hn : key ∉ es.map Prod.fst) (value : β) :
    put key value es = es ++ [(key, value)] := by
  induction es with
  | nil => rfl
  | cons e es ih =>
    rw [List.map_cons, List.mem_cons, not_or] at hn
    rw [put, if_neg (Ne.symm hn.1), ih hn.2, List.cons_append]

theorem keys_put_of_mem {key : α} {es : List (α × β)} (hm : key ∈ es.map Prod.fst) (value : β) :
    (put key value es).map Prod.fst = es.map Prod.fst := by
  induction es with
  | nil => cases hm
  | cons e es ih =>
    rw [put]
    split
    · rfl
    next hne =>
      have ht := (List.mem_cons.mp hm).resolve_left (Ne.symm hne)
      rw [List.map_cons, ih ht, List.map_cons]

theorem keys_put (key : α) (value : β) (es : List (α × β)) :
    (put key value es).map Prod.fst =
      if key ∈ es.map Prod.fst then es.map Prod.fst else es.map Prod.fst ++ [key] := by
  split
  next hm => exact keys_put_of_mem hm value
  next hn =>
    rw [put_of_not_mem hn, List.map_append]
    rfl

theorem nodup_keys_put (key : α) (value : β) {es : List (α × β)} (hk : (es.map Prod.fst).Nodup) :
    ((put key value es).map Prod.fst).Nodup := by
  rw [keys_put]
  split
  · exact hk
  next hn =>
    rw [← List.concat_eq_append]
    exact hk.concat hn

end Table

end Pseudocode
