import Pseudocode.Stream

namespace Pseudocode

theorem pairwise_of_orderFault? {is : List Instruction} (h : orderFault? is = none) :
    is.Pairwise fun a b => a.address < b.address := by
  induction is using orderFault?.induct with
  | case1 a b rest heq => simp [orderFault?, heq] at h
  | case2 a b rest hne hlt => simp [orderFault?, hne, hlt] at h
  | case3 a b rest hne hlt ih =>
    simp only [orderFault?, hne, hlt, if_false] at h
    have hab : a.address < b.address :=
      UInt64.lt_of_le_of_ne (UInt64.not_lt.mp hlt) (Ne.symm hne)
    refine List.pairwise_cons.mpr ⟨fun c hc => ?_, ih h⟩
    obtain rfl | hc := List.mem_cons.mp hc
    · exact hab
    · exact UInt64.lt_trans hab ((List.pairwise_cons.mp (ih h)).1 c hc)
  | case4 is hne =>
    match is, hne with
    | [], _ => exact .nil
    | [a], _ => exact List.pairwise_singleton _ a
    | a :: b :: rest, hne => exact absurd rfl (hne a b rest)

namespace Stream

theorem pairwise_address (s : Stream) :
    s.instructions.Pairwise fun a b => a.address < b.address :=
  pairwise_of_orderFault? s.ordered

theorem get?_eq_some_lt {s : Stream} {h : Nat} {i : Instruction} (hi : s.get? h = some i) :
    h < s.length :=
  (List.getElem?_eq_some_iff.mp hi).1

theorem exists_get? {s : Stream} {h : Nat} (hlt : h < s.length) : ∃ i, s.get? h = some i :=
  ⟨_, List.getElem?_eq_getElem hlt⟩

theorem address_lt {s : Stream} {h k : Nat} {i j : Instruction} (hi : s.get? h = some i)
    (hj : s.get? k = some j) (hlt : h < k) : i.address < j.address := by
  obtain ⟨hh, rfl⟩ := List.getElem?_eq_some_iff.mp hi
  obtain ⟨hk, rfl⟩ := List.getElem?_eq_some_iff.mp hj
  exact List.pairwise_iff_getElem.mp s.pairwise_address h k hh hk hlt

/-- An address belongs to one handle. -/
theorem handle_eq_of_address {s : Stream} {h k : Nat} {i j : Instruction} (hi : s.get? h = some i)
    (hj : s.get? k = some j) (ha : i.address = j.address) : h = k := by
  obtain hlt | rfl | hlt := Nat.lt_trichotomy h k
  · exact absurd ha (UInt64.ne_of_lt (address_lt hi hj hlt))
  · rfl
  · exact absurd ha.symm (UInt64.ne_of_lt (address_lt hj hi hlt))

theorem take_drop_zipIdx {α : Type} (l : List α) (start n : Nat) :
    (l.zipIdx.drop start).take n =
      (List.range' start n).filterMap fun h => l[h]?.map (·, h) := by
  induction n generalizing start with
  | zero => rfl
  | succ n ih =>
    rw [List.range'_succ, List.filterMap_cons]
    by_cases hs : start < l.length
    · have hz : start < l.zipIdx.length := by rwa [List.length_zipIdx]
      rw [List.drop_eq_getElem_cons hz, List.take_succ_cons, ih]
      simp [List.getElem?_eq_getElem hs]
    · have hd : ∀ k, start ≤ k → l.zipIdx.drop k = [] := fun k hk =>
        List.drop_eq_nil_of_le (by rw [List.length_zipIdx]; omega)
      have hr := ih (start + 1)
      rw [hd _ (Nat.le_succ start), List.take_nil] at hr
      rw [hd _ (Nat.le_refl start), List.take_nil, List.getElem?_eq_none (by omega), ← hr]
      rfl

theorem run_eq (s : Stream) (start stop : Nat) :
    s.run start stop =
      (List.range' start (stop - start)).filterMap fun h => (s.get? h).map (·, h) :=
  take_drop_zipIdx s.instructions start (stop - start)

theorem mem_run {s : Stream} {start stop h : Nat} {i : Instruction}
    (hm : (i, h) ∈ s.run start stop) : s.get? h = some i := by
  rw [run_eq] at hm
  obtain ⟨k, -, hk⟩ := List.mem_filterMap.mp hm
  obtain ⟨j, hj, he⟩ := Option.map_eq_some_iff.mp hk
  cases he
  exact hj

end Stream

end Pseudocode
