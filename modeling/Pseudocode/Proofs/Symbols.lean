import Mathlib.Data.List.Induction
import Pseudocode.Proofs.Table
import Pseudocode.Symbols

namespace Pseudocode.Symbols

/-- The smallest of the names with `p`, or none if there is no such name. -/
def IsSmallest (p : String → Prop) : Option String → Prop
  | none => ∀ n, ¬ p n
  | some name => p name ∧ ∀ n, p n → name ≤ n

namespace IsSmallest

variable {p q : String → Prop} {name? : Option String}

theorem congr (h : IsSmallest p name?) (hpq : ∀ n, q n ↔ p n) : IsSmallest q name? := by
  have he : q = p := funext fun n => propext (hpq n)
  rwa [he]

theorem unique {other? : Option String} (h : IsSmallest p name?) (ho : IsSmallest p other?) :
    name? = other? := by
  cases name? with
  | none =>
    cases other? with
    | none => rfl
    | some other => exact absurd ho.1 (h other)
  | some name =>
    cases other? with
    | none => exact absurd h.1 (ho name)
    | some other => rw [String.le_antisymm (h.2 other ho.1) (ho.2 name h.1)]

theorem eq_some_iff (h : IsSmallest p name?) (name : String) :
    name? = some name ↔ p name ∧ ∀ n, p n → name ≤ n := by
  constructor
  · rintro rfl
    exact h
  · intro hn
    have hs : IsSmallest p (some name) := hn
    exact h.unique hs

theorem eq_none_iff (h : IsSmallest p name?) : name? = none ↔ ∀ n, ¬ p n := by
  constructor
  · rintro rfl
    exact h
  · intro hn
    have hs : IsSmallest p none := hn
    exact h.unique hs

theorem smaller (h : IsSmallest p name?) (name : String) :
    IsSmallest (fun n => n = name ∨ p n) (some (Symbols.smaller name name?)) := by
  cases name? with
  | none =>
    refine ⟨.inl rfl, ?_⟩
    rintro n (rfl | hn)
    · exact String.le_refl n
    · exact absurd hn (h n)
  | some old =>
    rw [Symbols.smaller]
    split
    next hlt =>
      refine ⟨.inr h.1, ?_⟩
      rintro n (rfl | hn)
      · exact String.lt_asymm hlt
      · exact h.2 n hn
    next hle =>
      refine ⟨.inl rfl, ?_⟩
      rintro n (rfl | hn)
      · exact String.le_refl n
      · exact String.le_trans hle (h.2 n hn)

theorem remove {name : String} (h : IsSmallest p name?) (hne : name? ≠ some name) :
    IsSmallest (fun n => n ≠ name ∧ p n) name? := by
  cases name? with
  | none => exact fun n hn => h n hn.2
  | some old =>
    refine ⟨⟨?_, h.1⟩, fun n hn => h.2 n hn.2⟩
    rintro rfl
    exact hne rfl

end IsSmallest

theorem isSmallest_leastName? (a : UInt64) (es : List (String × UInt64)) :
    IsSmallest (fun n => (n, a) ∈ es) (leastName? a es) := by
  induction es with
  | nil => exact fun n => List.not_mem_nil
  | cons e es ih =>
    obtain ⟨name, b⟩ := e
    rw [leastName?]
    split
    next hb =>
      subst hb
      apply (ih.smaller name).congr
      simp
    next hb =>
      apply ih.congr
      simp [Ne.symm hb]

section

variable (s : Symbols) (name : String) (address a : UInt64)

theorem toList_reindex : (s.reindex address).toList = s.toList := by
  rw [reindex]
  split <;> rfl

theorem toList_insert :
    (s.insert name address).toList = Table.put name address s.toList := by
  rw [insert]
  cases s.addresses.get? name with
  | none => rfl
  | some old =>
    dsimp only
    split
    · rfl
    · split
      · exact toList_reindex _ old
      · rfl

theorem get?_insert (n : String) :
    (s.insert name address).get? n = if n = name then some address else s.get? n := by
  have h := congrArg (Table.find? n) (toList_insert s name address)
  rw [Table.find?_put] at h
  exact h

theorem nameAt?_claim :
    (s.claim name address).nameAt? a =
      if a = address then some (smaller name (s.nameAt? address)) else s.nameAt? a :=
  Table.get?_insert s.names address a _

theorem nameAt?_reindex :
    (s.reindex address).nameAt? a =
      if a = address then leastName? address s.toList else s.nameAt? a := by
  rw [reindex, toList]
  cases leastName? address s.addresses.entries with
  | none => exact Table.get?_erase s.names address a
  | some least => exact Table.get?_insert s.names address a least

/-- The name of an address after an insertion. Only the address that the name comes to and the one
that it leaves are affected. -/
theorem nameAt?_insert :
    (s.insert name address).nameAt? a =
      if s.get? name = some address then s.nameAt? a
      else if a = address then some (smaller name (s.nameAt? address))
      else if s.get? name = some a ∧ s.nameAt? a = some name then
        leastName? a (Table.put name address s.toList)
      else s.nameAt? a := by
  rw [insert, get?]
  cases s.addresses.get? name with
  | none =>
    dsimp only
    rw [nameAt?_claim]
    simp [nameAt?]
  | some old =>
    dsimp only
    by_cases ho : old = address
    · rw [if_pos ho, ho, if_pos rfl]
      rfl
    · have hn : some old ≠ some address := fun h => ho (Option.some.inj h)
      rw [if_neg ho, if_neg hn]
      split
      next hs =>
        rw [nameAt?_claim, nameAt?_reindex, nameAt?_reindex, if_neg (Ne.symm ho)]
        by_cases ha : a = old
        · subst ha
          rw [if_neg ho, if_neg ho, if_pos rfl, if_pos ⟨rfl, hs⟩]
          rfl
        · have hna : ¬ (some old = some a ∧ s.nameAt? a = some name) :=
            fun h => ha (Option.some.inj h.1).symm
          rw [if_neg ha, if_neg hna]
          rfl
      next hs =>
        have hna : ¬ (some old = some a ∧ s.nameAt? a = some name) := by
          rintro ⟨h, hm⟩
          rw [Option.some.inj h] at hs
          exact hs hm
        rw [nameAt?_claim, if_neg hna]
        rfl

end

/-- Every name occurs once, and every address has the smallest of its names. -/
structure Agree (s : Symbols) : Prop where
  distinct : (s.toList.map Prod.fst).Nodup
  names : ∀ a, IsSmallest (fun n => s.get? n = some a) (s.nameAt? a)

theorem agree_empty : empty.Agree where
  distinct := List.nodup_nil
  names _ _ h := by cases h

theorem Agree.insert {s : Symbols} (h : s.Agree) (name : String) (address : UInt64) :
    (s.insert name address).Agree := by
  have hk : ((s.insert name address).toList.map Prod.fst).Nodup := by
    rw [toList_insert]
    exact Table.nodup_keys_put name address h.distinct
  refine ⟨hk, ?_⟩
  intro a
  rw [nameAt?_insert]
  split
  next hg =>
    -- The name is there already.
    apply (h.names a).congr
    intro n
    rw [get?_insert]
    by_cases hn : n = name <;> simp [hn, hg]
  next hg =>
    split
    next ha =>
      subst ha
      apply ((h.names a).smaller name).congr
      intro n
      rw [get?_insert]
      by_cases hn : n = name <;> simp [hn]
    next ha =>
      split
      next hl =>
        -- The address has lost its smallest name, and the names that are left are searched.
        apply (isSmallest_leastName? a _).congr
        intro n
        rw [← toList_insert]
        exact Table.find?_eq_some_iff hk n a
      next hl =>
        have hne : s.nameAt? a ≠ some name := by
          intro hm
          have hs := ((h.names a).eq_some_iff name).mp hm
          exact hl ⟨hs.1, hm⟩
        apply ((h.names a).remove hne).congr
        intro n
        rw [get?_insert]
        by_cases hn : n = name <;> simp [hn, Ne.symm ha]

theorem agree_ofList (es : List (String × UInt64)) : (ofList es).Agree := by
  apply List.foldlRecOn
  · exact agree_empty
  · intro s hs e _
    exact hs.insert e.1 e.2

section

variable (es : List (String × UInt64))

theorem ofList_concat (e : String × UInt64) :
    ofList (es ++ [e]) = (ofList es).insert e.1 e.2 :=
  List.foldl_append

theorem get?_ofList (n : String) : (ofList es).get? n = es.reverse.lookup n := by
  induction es using List.reverseRecOn with
  | nil => rfl
  | append_singleton es e ih =>
    obtain ⟨name, a⟩ := e
    rw [ofList_concat, get?_insert, ih, List.reverse_concat, List.lookup_cons]
    by_cases hn : n = name
    · simp [hn]
    · have hb : (n == name) = false := beq_false_of_ne hn
      rw [if_neg hn, hb]

theorem keys_ofList : (ofList es).toList.map Prod.fst = (es.map Prod.fst).eraseDups := by
  induction es using List.reverseRecOn with
  | nil => rfl
  | append_singleton es e ih =>
    rw [ofList_concat, toList_insert, Table.keys_put, ih, List.map_append, List.eraseDups_append]
    generalize es.map Prod.fst = keys
    by_cases hm : e.1 ∈ keys
    · simp [List.mem_eraseDups, hm, List.removeAll]
    · simp [List.mem_eraseDups, hm, List.removeAll, List.eraseDups_cons]

theorem toList_ofList_of_nodup (hk : (es.map Prod.fst).Nodup) : (ofList es).toList = es := by
  induction es using List.reverseRecOn with
  | nil => rfl
  | append_singleton es e ih =>
    rw [List.map_append, List.nodup_append] at hk
    have hn : e.1 ∉ es.map Prod.fst := by
      intro hm
      exact hk.2.2 e.1 hm e.1 List.mem_cons_self rfl
    rw [ofList_concat, toList_insert, ih hk.1, Table.put_of_not_mem hn]

/-- After any insertions, a name has the address that it got last, and an address has the smallest of
the names that have it. The names stand in the order of their first insertion, and a table that is
made from the entries of another one has the same entries and answers alike. -/
theorem ofList_agrees :
    (∀ n, (ofList es).get? n = es.reverse.lookup n) ∧
    (∀ a n, (ofList es).nameAt? a = some n ↔
      (ofList es).get? n = some a ∧ ∀ m, (ofList es).get? m = some a → n ≤ m) ∧
    (∀ a, (ofList es).nameAt? a = none ↔ ∀ n, (ofList es).get? n ≠ some a) ∧
    (ofList es).toList.map Prod.fst = (es.map Prod.fst).eraseDups ∧
    (ofList (ofList es).toList).toList = (ofList es).toList ∧
    (∀ n, (ofList (ofList es).toList).get? n = (ofList es).get? n) ∧
    ∀ a, (ofList (ofList es).toList).nameAt? a = (ofList es).nameAt? a := by
  have h := agree_ofList es
  have ht := toList_ofList_of_nodup (ofList es).toList h.distinct
  have hg : ∀ n, (ofList (ofList es).toList).get? n = (ofList es).get? n :=
    fun n => congrArg (Table.find? n) ht
  refine ⟨get?_ofList es, ?_, ?_, keys_ofList es, ht, hg, ?_⟩
  · intro a
    exact (h.names a).eq_some_iff
  · intro a
    exact (h.names a).eq_none_iff
  · intro a
    -- Both names are the smallest one among the same names.
    have hr := (agree_ofList (ofList es).toList).names a
    apply (hr.congr ?_).unique (h.names a)
    intro n
    rw [hg]

end

end Pseudocode.Symbols
