namespace Pseudocode

def insertAscending (a : UInt64) : List UInt64 → List UInt64
  | [] => [a]
  | b :: rest =>
    if a < b then a :: b :: rest
    else if a = b then b :: rest
    else b :: insertAscending a rest

theorem mem_insertAscending (a x : UInt64) (as : List UInt64) :
    x ∈ insertAscending a as ↔ x = a ∨ x ∈ as := by
  induction as with
  | nil => simp [insertAscending]
  | cons b rest ih =>
    rw [insertAscending]
    split
    · simp
    · split
      · simp_all
      · simp [ih, or_left_comm]

theorem pairwise_insertAscending (a : UInt64) {as : List UInt64} (h : as.Pairwise (· < ·)) :
    (insertAscending a as).Pairwise (· < ·) := by
  induction as with
  | nil => simp [insertAscending]
  | cons b rest ih =>
    obtain ⟨hb, hr⟩ := List.pairwise_cons.mp h
    rw [insertAscending]
    split
    next hab =>
      refine List.pairwise_cons.mpr ⟨fun x hx => ?_, h⟩
      rcases List.mem_cons.mp hx with rfl | hx
      · exact hab
      · exact UInt64.lt_trans hab (hb x hx)
    next hab =>
      split
      · exact h
      next hne =>
        refine List.pairwise_cons.mpr ⟨fun x hx => ?_, ih hr⟩
        rcases (mem_insertAscending a x rest).mp hx with rfl | hx
        · exact UInt64.lt_of_le_of_ne (UInt64.not_lt.mp hab) (Ne.symm hne)
        · exact hb x hx

structure Marks where
  toList : List UInt64
  ascending : toList.Pairwise (· < ·)

namespace Marks

def empty : Marks := ⟨[], .nil⟩

def insert (m : Marks) (a : UInt64) : Marks :=
  ⟨insertAscending a m.toList, pairwise_insertAscending a m.ascending⟩

def contains (m : Marks) (a : UInt64) : Bool :=
  m.toList.contains a

def size (m : Marks) : Nat :=
  m.toList.length

def isEmpty (m : Marks) : Bool :=
  m.toList.isEmpty

theorem contains_insert (m : Marks) (a x : UInt64) :
    (m.insert a).contains x = (x == a || m.contains x) := by
  rw [Bool.eq_iff_iff]
  simp [contains, insert, mem_insertAscending]

end Marks

end Pseudocode
