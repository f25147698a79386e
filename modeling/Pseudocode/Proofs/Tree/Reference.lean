import Mathlib.Data.List.Nodup
import Pseudocode.Tree.Reference

namespace Pseudocode

namespace Block

theorem mem_handles {b : Block} {h : Nat} : h ∈ b.handles ↔ b.start ≤ h ∧ h < b.stop := by
  rw [handles, length, List.mem_range'_1]
  omega

theorem nodup_handles (b : Block) : b.handles.Nodup :=
  List.nodup_range'

theorem handles_of_length_one {b : Block} (h : b.length = 1) : b.handles = [b.start] := by
  rw [handles, h]
  rfl

theorem isEmpty_eq_false {b : Block} : b.isEmpty = false ↔ b.start < b.stop := by
  rw [isEmpty, beq_eq_false_iff_ne, length]
  omega

theorem isEmpty_eq_true {b : Block} : b.isEmpty = true ↔ b.stop ≤ b.start := by
  rw [isEmpty, beq_iff_eq, length]
  omega

end Block

namespace Reference

def block? : Reference → Option Block
  | .block b => some b
  | .jump _ | .comparison _ => none

def comparison? : Reference → Option Nat
  | .comparison h => some h
  | .block _ | .jump _ => none

/-- The handles of all blocks among some references. -/
def covered (rs : List Reference) : List Nat :=
  (rs.filterMap block?).flatMap Block.handles

/-- The handles of all comparisons among some references. -/
def attached (rs : List Reference) : List Nat :=
  rs.filterMap comparison?

@[simp] theorem covered_nil : covered [] = [] := rfl

@[simp] theorem covered_append (rs qs : List Reference) :
    covered (rs ++ qs) = covered rs ++ covered qs := by
  simp [covered]

@[simp] theorem covered_block (b : Block) (rs : List Reference) :
    covered (.block b :: rs) = b.handles ++ covered rs := rfl

@[simp] theorem covered_jump (h : Nat) (rs : List Reference) :
    covered (.jump h :: rs) = covered rs := rfl

@[simp] theorem covered_comparison (h : Nat) (rs : List Reference) :
    covered (.comparison h :: rs) = covered rs := rfl

@[simp] theorem attached_nil : attached [] = [] := rfl

@[simp] theorem attached_append (rs qs : List Reference) :
    attached (rs ++ qs) = attached rs ++ attached qs :=
  List.filterMap_append

@[simp] theorem attached_block (b : Block) (rs : List Reference) :
    attached (.block b :: rs) = attached rs := rfl

@[simp] theorem attached_jump (h : Nat) (rs : List Reference) :
    attached (.jump h :: rs) = attached rs := rfl

@[simp] theorem attached_comparison (h : Nat) (rs : List Reference) :
    attached (.comparison h :: rs) = h :: attached rs := rfl

theorem mem_attached {rs : List Reference} {h : Nat} : h ∈ attached rs ↔ .comparison h ∈ rs := by
  induction rs with
  | nil => simp
  | cons r rs ih => cases r <;> simp [ih]

theorem mem_covered {rs : List Reference} {h : Nat} :
    h ∈ covered rs ↔ ∃ b, .block b ∈ rs ∧ h ∈ b.handles := by
  induction rs with
  | nil => simp
  | cons r rs ih => cases r <;> simp [ih, or_and_right, exists_or]

/-- The handles that some references show: the comparisons, and those handles of blocks that are
stated. -/
def shown (stated : Nat → Bool) : List Reference → List Nat
  | [] => []
  | .block b :: rs => b.handles.filter stated ++ shown stated rs
  | .jump _ :: rs => shown stated rs
  | .comparison h :: rs => h :: shown stated rs

@[simp] theorem shown_append (stated : Nat → Bool) (rs qs : List Reference) :
    shown stated (rs ++ qs) = shown stated rs ++ shown stated qs := by
  induction rs with
  | nil => rfl
  | cons r rs ih => cases r <;> simp [shown, ih]

theorem count_shown {stated : Nat → Bool} {rs : List Reference}
    (hs : ∀ h ∈ covered rs, stated h = true) (h : Nat) :
    (shown stated rs).count h = (covered rs).count h + (attached rs).count h := by
  induction rs with
  | nil => rfl
  | cons r rs ih =>
    cases r with
    | block b =>
      have hb : b.handles.filter stated = b.handles :=
        List.filter_eq_self.mpr fun k hk => hs k (by simp [hk])
      have hr := ih fun k hk => hs k (by simp [hk])
      simp only [shown, hb, covered_block, attached_block, List.count_append, hr]
      omega
    | jump k => exact ih hs
    | comparison k =>
      have hr := ih hs
      simp only [shown, covered_comparison, attached_comparison, List.count_cons, hr]
      omega

/-- References without comparisons show what they cover, in order, if all of it is stated. -/
theorem shown_eq_covered {stated : Nat → Bool} {rs : List Reference} (ha : attached rs = [])
    (hs : ∀ h ∈ covered rs, stated h = true) : shown stated rs = covered rs := by
  induction rs with
  | nil => rfl
  | cons r rs ih =>
    cases r with
    | block b =>
      have hb : b.handles.filter stated = b.handles :=
        List.filter_eq_self.mpr fun k hk => hs k (by simp [hk])
      rw [shown, covered_block, hb, ih ha fun k hk => hs k (by simp [hk])]
    | jump k => exact ih ha hs
    | comparison k => cases ha

theorem mem_shown_of_attached {stated : Nat → Bool} {rs : List Reference} {h : Nat}
    (hh : h ∈ attached rs) : h ∈ shown stated rs := by
  induction rs with
  | nil => simp at hh
  | cons r rs ih =>
    cases r with
    | block b => exact List.mem_append_right _ (ih hh)
    | jump k => exact ih hh
    | comparison k =>
      obtain rfl | hh := List.mem_cons.mp hh
      · exact List.mem_cons_self
      · exact List.mem_cons_of_mem _ (ih hh)

theorem mem_shown_of_covered {stated : Nat → Bool} {rs : List Reference} {h : Nat}
    (hh : h ∈ covered rs) (hs : stated h = true) : h ∈ shown stated rs := by
  induction rs with
  | nil => simp at hh
  | cons r rs ih =>
    cases r with
    | block b =>
      obtain hb | hh := List.mem_append.mp hh
      · exact List.mem_append_left _ (List.mem_filter.mpr ⟨hb, hs⟩)
      · exact List.mem_append_right _ (ih hh)
    | jump k => exact ih hh
    | comparison k => exact List.mem_cons_of_mem _ (ih hh)

theorem fault?_block_eq_none {b : Block} {n : Nat} :
    (Reference.block b).fault? n = none ↔ b.start < b.stop ∧ b.stop ≤ n := by
  by_cases h : b.start < b.stop
  · simp [fault?, rangeFault?, Block.isEmpty_eq_false.mpr h, h]
  · have he : b.isEmpty = true := by
      rw [← Bool.not_eq_false, Block.isEmpty_eq_false]
      exact h
    simp [fault?, he, h]

end Reference

@[simp] theorem Test.covered_references (t : Test) : Reference.covered t.references = [] := by
  cases h : t.comparison <;> simp [references, h]

@[simp] theorem Test.attached_references (t : Test) :
    Reference.attached t.references = t.comparison.toList := by
  cases h : t.comparison <;> simp [references, h]

@[simp] theorem Test.shown_references (stated : Nat → Bool) (t : Test) :
    Reference.shown stated t.references = t.comparison.toList := by
  cases h : t.comparison <;> simp [references, h, Reference.shown]

namespace Tree

def blocks (t : Tree) : List Block :=
  (Tree.references t).filterMap Reference.block?

/-- The instructions of the blocks of a tree in reading order. -/
def covered (t : Tree) : List Nat :=
  (blocks t).flatMap Block.handles

/-- The comparisons that the conditionals of a tree carry. -/
def attached (t : Tree) : List Nat :=
  Reference.attached (Tree.references t)

theorem validate_eq_ok {t : Tree} {s : Stream} :
    validate t s = .ok () ↔ ∀ r ∈ Tree.references t, r.fault? s.length = none := by
  rw [← List.findSome?_eq_none_iff]
  unfold validate check fault?
  split <;> simp_all

theorem lt_of_mem_covered {t : Tree} {s : Stream} (hv : validate t s = .ok ()) {h : Nat}
    (hh : h ∈ covered t) : h < s.length := by
  obtain ⟨b, hb, hm⟩ := Reference.mem_covered.mp hh
  have hr := Reference.fault?_block_eq_none.mp (validate_eq_ok.mp hv _ hb)
  have hs := Block.mem_handles.mp hm
  omega

theorem nodup_covered {t : Tree}
    (hd : (blocks t).Pairwise fun b c => List.Disjoint b.handles c.handles) : (covered t).Nodup :=
  List.nodup_flatMap.mpr ⟨fun b _ => b.nodup_handles, hd⟩

end Tree

end Pseudocode
