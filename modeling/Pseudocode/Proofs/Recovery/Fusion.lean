import Pseudocode.Proofs.Stream
import Pseudocode.Proofs.Tree.Reference
import Pseudocode.Proofs.Tree.View
import Pseudocode.Recovery.Findings

namespace Pseudocode

open Reference

namespace Block

theorem comparison?_eq_some {b : Block} {s : Stream} {h : Nat} (hc : b.comparison? s = some h) :
    b.start < b.stop ∧ h = b.stop - 1 ∧ ∃ i, s.get? h = some i ∧ i.isFusable = true := by
  obtain ⟨hl, hf⟩ := Option.filter_eq_some_iff.mp hc
  obtain ⟨i, hi, hfus⟩ := (Option.any_eq_true _ _).mp hf
  unfold last? at hl
  split at hl
  · cases hl
  · next he =>
    cases hl
    exact ⟨isEmpty_eq_false.mp (Bool.not_eq_true _ ▸ he), rfl, i, hi, hfus⟩

theorem mem_handles_of_comparison? {b : Block} {s : Stream} {h : Nat}
    (hc : b.comparison? s = some h) : h ∈ b.handles := by
  obtain ⟨hlt, rfl, -⟩ := comparison?_eq_some hc
  rw [mem_handles]
  omega

theorem handles_eq_concat {b : Block} (hlt : b.start < b.stop) :
    b.handles = List.range' b.start (b.length - 1) ++ [b.stop - 1] := by
  have hl : b.length = (b.length - 1) + 1 := by rw [length]; omega
  have he : b.start + (b.length - 1) = b.stop - 1 := by rw [length]; omega
  rw [handles, hl, List.range'_concat, Nat.add_sub_cancel, Nat.one_mul, he]

theorem comparison?_of_isLoneCompare {b : Block} {s : Stream} (hc : b.isLoneCompare s = true) :
    b.comparison? s = some b.start := by
  obtain ⟨hl, i, hi, ho⟩ := of_isLoneCompare hc
  have he : b.isEmpty = false := by rw [isEmpty, hl]; rfl
  have hs : b.stop - 1 = b.start := by rw [length] at hl; omega
  have hf : i.isFusable = true := by rw [Instruction.isFusable, ho]; rfl
  rw [comparison?, last?, he, hs]
  simp [Option.filter, hi, hf]

end Block

/-- An offered comparison replaces the one that a test has. -/
def Test.offered (test : Test) (offer : Option Nat) : Test :=
  { test with comparison := offer.or test.comparison }

namespace Node

@[simp] theorem attach_ifGoto (test : Test) (target : UInt64) (offer : Option Nat) :
    (ifGoto test target).attach offer = ifGoto (test.offered offer) target := by
  cases offer <;> rfl

@[simp] theorem attach_andIf (test : Test) (offer : Option Nat) :
    (andIf test).attach offer = andIf (test.offered offer) := by
  cases offer <;> rfl

@[simp] theorem attach_ifElse (test : Test) (body otherwise : List Item) (offer : Option Nat) :
    (ifElse test body otherwise).attach offer = ifElse (test.offered offer) body otherwise := by
  cases offer <;> rfl

theorem attach_of_not_conditional {n : Node} (hn : n.isConditional = false) (offer : Option Nat) :
    n.attach offer = n := by
  cases offer with
  | none => rfl
  | some h => cases n <;> first | rfl | cases hn

theorem covered_attach (n : Node) (offer : Option Nat) :
    covered (n.attach offer).references = covered n.references := by
  cases offer with
  | none => rfl
  | some h => cases n <;> simp [attach, setComparison, references]

theorem taken_none (n : Node) : n.taken none = [] := by
  simp [taken]

theorem mem_taken {n : Node} {offer : Option Nat} {h : Nat} (hh : h ∈ n.taken offer) :
    offer = some h := by
  unfold taken at hh
  split at hh
  · exact Option.mem_toList.mp hh
  · cases hh

end Node

mutual

theorem Node.covered_fuse (s : Stream) : ∀ n : Node,
    covered (n.fuse s).references = covered n.references
  | .seq items => Tree.covered_fuseAfter s none items
  | .ifElse test body otherwise => by
    have hb := Tree.covered_fuseAfter s none body
    have ho := Tree.covered_fuseAfter s none otherwise
    simp [Node.fuse, Node.references, hb, ho]
  | .loop body _ epilog => by
    have hb := Tree.covered_fuseAfter s none body
    have he := covered_fuseEpilog s epilog
    simp [Node.fuse, Node.references, hb, he]
  | .ifGoto .. | .andIf _ | .jump _ | .comment _ => rfl

theorem Tree.covered_fuseAfter (s : Stream) (offer : Option Nat) : ∀ items : List Item,
    Reference.covered (Tree.references (Tree.fuseAfter s offer items)) =
      Reference.covered (Tree.references items)
  | [] => rfl
  | .block b :: items => by
    have hr := Tree.covered_fuseAfter s (b.comparison? s) items
    simp [Tree.fuseAfter, Tree.references, Item.references, hr]
  | .node n :: items => by
    have hn := Node.covered_fuse s n
    have hr := Tree.covered_fuseAfter s none items
    simp [Tree.fuseAfter, Tree.references, Item.references, Node.covered_attach, hn, hr]

theorem covered_fuseEpilog (s : Stream) : ∀ epilog : Option Node,
    covered (epilogReferences (fuseEpilog s epilog)) = covered (epilogReferences epilog)
  | none => rfl
  | some n => Node.covered_fuse s n

end

theorem Tree.covered_fuse (t : Tree) (s : Stream) : (t.fuse s).covered = t.covered :=
  Tree.covered_fuseAfter s none t

mutual

theorem Node.exists_block_of_fused {s : Stream} {h : Nat} : ∀ n : Node,
    h ∈ n.fused s → ∃ b, .block b ∈ n.references ∧ b.comparison? s = some h
  | .seq items, hh => (Tree.exists_block_of_fusedAfter items none hh).resolve_left (by simp)
  | .ifElse test body otherwise, hh => by
    obtain hh | hh := List.mem_append.mp hh
    · obtain ⟨b, hb, hc⟩ := (Tree.exists_block_of_fusedAfter body none hh).resolve_left (by simp)
      exact ⟨b, by simp [Node.references, hb], hc⟩
    · obtain ⟨b, hb, hc⟩ :=
        (Tree.exists_block_of_fusedAfter otherwise none hh).resolve_left (by simp)
      exact ⟨b, by simp [Node.references, hb], hc⟩
  | .loop body _ epilog, hh => by
    obtain hh | hh := List.mem_append.mp hh
    · obtain ⟨b, hb, hc⟩ := (Tree.exists_block_of_fusedAfter body none hh).resolve_left (by simp)
      exact ⟨b, by simp [Node.references, hb], hc⟩
    · obtain ⟨b, hb, hc⟩ := exists_block_of_fusedEpilog epilog hh
      exact ⟨b, by simp [Node.references, hb], hc⟩
  | .ifGoto .., hh | .andIf _, hh | .jump _, hh | .comment _, hh => by cases hh

/-- Fusion takes what a block offers, the first handle perhaps from the block before. -/
theorem Tree.exists_block_of_fusedAfter {s : Stream} {h : Nat} : ∀ (items : List Item)
    (offer : Option Nat), h ∈ Tree.fusedAfter s offer items →
      offer = some h ∨ ∃ b, .block b ∈ Tree.references items ∧ b.comparison? s = some h
  | [], _, hh => by cases hh
  | .block b :: items, _, hh => by
    obtain hb | ⟨d, hd, hc⟩ := Tree.exists_block_of_fusedAfter items (b.comparison? s) hh
    · exact .inr ⟨b, by simp [Tree.references, Item.references], hb⟩
    · exact .inr ⟨d, by simp [Tree.references, hd], hc⟩
  | .node n :: items, offer, hh => by
    simp only [Tree.fusedAfter, List.mem_append] at hh
    obtain (hh | hh) | hh := hh
    · exact .inl (Node.mem_taken hh)
    · obtain ⟨b, hb, hc⟩ := Node.exists_block_of_fused n hh
      exact .inr ⟨b, by simp [Tree.references, Item.references, hb], hc⟩
    · obtain ⟨b, hb, hc⟩ := (Tree.exists_block_of_fusedAfter items none hh).resolve_left (by simp)
      exact .inr ⟨b, by simp [Tree.references, hb], hc⟩

theorem exists_block_of_fusedEpilog {s : Stream} {h : Nat} : ∀ epilog : Option Node,
    h ∈ fusedEpilog s epilog →
      ∃ b, .block b ∈ epilogReferences epilog ∧ b.comparison? s = some h
  | none, hh => by cases hh
  | some n, hh => Node.exists_block_of_fused n hh

end

theorem Node.mem_covered_of_fused {s : Stream} {h : Nat} {n : Node} (hh : h ∈ n.fused s) :
    h ∈ covered n.references := by
  obtain ⟨b, hb, hc⟩ := Node.exists_block_of_fused n hh
  exact mem_covered.mpr ⟨b, hb, Block.mem_handles_of_comparison? hc⟩

theorem Tree.mem_covered_of_fusedAfter {s : Stream} {h : Nat} {items : List Item}
    (hh : h ∈ Tree.fusedAfter s none items) : h ∈ Reference.covered (Tree.references items) := by
  obtain ⟨b, hb, hc⟩ := (Tree.exists_block_of_fusedAfter items none hh).resolve_left (by simp)
  exact mem_covered.mpr ⟨b, hb, Block.mem_handles_of_comparison? hc⟩

theorem mem_covered_of_fusedEpilog {s : Stream} {h : Nat} {epilog : Option Node}
    (hh : h ∈ fusedEpilog s epilog) : h ∈ covered (epilogReferences epilog) := by
  obtain ⟨b, hb, hc⟩ := exists_block_of_fusedEpilog epilog hh
  exact mem_covered.mpr ⟨b, hb, Block.mem_handles_of_comparison? hc⟩

theorem Tree.get?_of_fusedAfter {s : Stream} {h : Nat} {items : List Item}
    (hh : h ∈ Tree.fusedAfter s none items) : ∃ i, s.get? h = some i := by
  obtain ⟨b, -, hc⟩ := (Tree.exists_block_of_fusedAfter items none hh).resolve_left (by simp)
  obtain ⟨-, -, i, hi, -⟩ := Block.comparison?_eq_some hc
  exact ⟨i, hi⟩

mutual

theorem Node.mem_attached_of_fused {s : Stream} {h : Nat} : ∀ (n : Node) (offer : Option Nat),
    h ∈ n.taken offer ∨ h ∈ n.fused s → h ∈ attached ((n.fuse s).attach offer).references
  | .seq items, offer, hh => by
    have hi := hh.resolve_left List.not_mem_nil
    rw [Node.attach_of_not_conditional rfl]
    exact Tree.mem_attached_of_fusedAfter items none hi
  | .ifGoto test _, offer, hh => by
    have ho := Node.mem_taken (hh.resolve_right List.not_mem_nil)
    simp [Node.fuse, Node.references, Test.offered, ho]
  | .andIf test, offer, hh => by
    have ho := Node.mem_taken (hh.resolve_right List.not_mem_nil)
    simp [Node.fuse, Node.references, Test.offered, ho]
  | .ifElse test body otherwise, offer, hh => by
    simp only [Node.fuse, Node.attach_ifElse, Node.references, attached_append,
      Test.attached_references, List.mem_append]
    obtain hh | hh := hh
    · exact .inl (.inl (by simp [Test.offered, Node.mem_taken hh]))
    · obtain hh | hh := List.mem_append.mp hh
      · exact .inl (.inr (Tree.mem_attached_of_fusedAfter body none hh))
      · exact .inr (Tree.mem_attached_of_fusedAfter otherwise none hh)
  | .jump _, _, hh => by cases hh.resolve_left List.not_mem_nil
  | .loop body _ epilog, offer, hh => by
    rw [Node.attach_of_not_conditional rfl]
    simp only [Node.fuse, Node.references, attached_append, List.mem_append]
    obtain hh | hh := List.mem_append.mp (hh.resolve_left List.not_mem_nil)
    · exact .inl (Tree.mem_attached_of_fusedAfter body none hh)
    · exact .inr (mem_attached_of_fusedEpilog epilog hh)
  | .comment _, _, hh => by cases hh.resolve_left List.not_mem_nil

theorem Tree.mem_attached_of_fusedAfter {s : Stream} {h : Nat} : ∀ (items : List Item)
    (offer : Option Nat), h ∈ Tree.fusedAfter s offer items →
      h ∈ Reference.attached (Tree.references (Tree.fuseAfter s offer items))
  | [], _, hh => by cases hh
  | .block b :: items, _, hh => by
    exact Tree.mem_attached_of_fusedAfter items (b.comparison? s) hh
  | .node n :: items, offer, hh => by
    simp only [Tree.fusedAfter, List.mem_append] at hh
    simp only [Tree.fuseAfter, Tree.references, Item.references, attached_append, List.mem_append]
    exact hh.imp (Node.mem_attached_of_fused n offer) (Tree.mem_attached_of_fusedAfter items none)

theorem mem_attached_of_fusedEpilog {s : Stream} {h : Nat} : ∀ epilog : Option Node,
    h ∈ fusedEpilog s epilog → h ∈ attached (epilogReferences (fuseEpilog s epilog))
  | none, hh => by cases hh
  | some n, hh => Node.mem_attached_of_fused n none (.inr hh)

end

mutual

theorem Node.otherwise_of_fuse {s : Stream} {c : Conditional} : ∀ (n : Node) (offer : Option Nat),
    c ∈ ((n.fuse s).attach offer).conditionals →
      ∃ items, c.otherwise = Tree.fuseAfter s none items ∧
        Tree.fusedAfter s none items ⊆ n.fused s
  | .seq items, offer, hc => by
    rw [Node.attach_of_not_conditional rfl] at hc
    exact Tree.otherwise_of_fuseAfter items none hc
  | .ifElse test body otherwise, offer, hc => by
    simp only [Node.fuse, Node.attach_ifElse, Node.conditionals, List.mem_cons,
      List.mem_append] at hc
    obtain rfl | hc | hc := hc
    · exact ⟨otherwise, rfl, List.subset_append_right _ _⟩
    · obtain ⟨items, ho, hs⟩ := Tree.otherwise_of_fuseAfter body none hc
      exact ⟨items, ho, List.subset_append_of_subset_left _ hs⟩
    · obtain ⟨items, ho, hs⟩ := Tree.otherwise_of_fuseAfter otherwise none hc
      exact ⟨items, ho, List.subset_append_of_subset_right _ hs⟩
  | .loop body _ epilog, offer, hc => by
    rw [Node.attach_of_not_conditional rfl] at hc
    obtain hc | hc := List.mem_append.mp hc
    · obtain ⟨items, ho, hs⟩ := Tree.otherwise_of_fuseAfter body none hc
      exact ⟨items, ho, List.subset_append_of_subset_left _ hs⟩
    · obtain ⟨items, ho, hs⟩ := otherwise_of_fuseEpilog epilog hc
      exact ⟨items, ho, List.subset_append_of_subset_right _ hs⟩
  | .ifGoto .., none, hc | .ifGoto .., some _, hc => by cases hc
  | .andIf _, none, hc | .andIf _, some _, hc => by cases hc
  | .jump _, none, hc | .jump _, some _, hc => by cases hc
  | .comment _, none, hc | .comment _, some _, hc => by cases hc

/-- The alternatives in a fused tree are fused on their own, with nothing before them. -/
theorem Tree.otherwise_of_fuseAfter {s : Stream} {c : Conditional} : ∀ (items : List Item)
    (offer : Option Nat), c ∈ Tree.conditionals (Tree.fuseAfter s offer items) →
      ∃ branch, c.otherwise = Tree.fuseAfter s none branch ∧
        Tree.fusedAfter s none branch ⊆ Tree.fusedAfter s offer items
  | [], _, hc => by cases hc
  | .block b :: items, _, hc => Tree.otherwise_of_fuseAfter items (b.comparison? s) hc
  | .node n :: items, offer, hc => by
    simp only [Tree.fuseAfter, Tree.conditionals, Item.conditionals, List.mem_append] at hc
    obtain hc | hc := hc
    · obtain ⟨branch, ho, hs⟩ := Node.otherwise_of_fuse n offer hc
      exact ⟨branch, ho, fun h hh => by simp [Tree.fusedAfter, hs hh]⟩
    · obtain ⟨branch, ho, hs⟩ := Tree.otherwise_of_fuseAfter items none hc
      exact ⟨branch, ho, fun h hh => by simp [Tree.fusedAfter, hs hh]⟩

theorem otherwise_of_fuseEpilog {s : Stream} {c : Conditional} : ∀ epilog : Option Node,
    c ∈ epilogConditionals (fuseEpilog s epilog) →
      ∃ items, c.otherwise = Tree.fuseAfter s none items ∧
        Tree.fusedAfter s none items ⊆ fusedEpilog s epilog
  | none, hc => by cases hc
  | some n, hc => Node.otherwise_of_fuse n none hc

end

theorem Tree.fuseAfter_eq_pair {s : Stream} {offer : Option Nat} {items : List Item} {b : Block}
    {m : Node} (h : Tree.fuseAfter s offer items = [.block b, .node m]) :
    ∃ n, items = [.block b, .node n] ∧ m = (n.fuse s).attach (b.comparison? s) := by
  match items, h with
  | [.block d, .node n], h =>
    simp only [Tree.fuseAfter, List.cons.injEq, Item.block.injEq, Item.node.injEq, and_true] at h
    obtain ⟨rfl, rfl⟩ := h
    exact ⟨n, rfl, rfl⟩
  | [.block d, .block e], h => simp [Tree.fuseAfter] at h
  | .block d :: .node n :: x :: items, h => cases x <;> simp [Tree.fuseAfter] at h
  | .block d :: .block e :: x :: items, h => simp [Tree.fuseAfter] at h
  | [.block d], h => simp [Tree.fuseAfter] at h
  | .node n :: items, h => simp [Tree.fuseAfter] at h
  | [], h => simp [Tree.fuseAfter] at h

theorem Node.fuse_attach_eq_toNode {s : Stream} {n : Node} {h : Nat} {c : Conditional}
    (hn : (n.fuse s).attach (some h) = c.toNode) :
    n.isConditional = true ∧ c.test.comparison = some h := by
  cases n with
  | ifElse test body otherwise =>
    simp only [Node.fuse, Node.attach_ifElse, Conditional.toNode, Node.ifElse.injEq] at hn
    exact ⟨rfl, by rw [← hn.1]; rfl⟩
  | ifGoto test target => rw [Node.fuse, Node.attach_ifGoto] at hn; cases hn
  | andIf test => rw [Node.fuse, Node.attach_andIf] at hn; cases hn
  | seq items => cases hn
  | jump target => cases hn
  | loop body infinite epilog => cases hn
  | comment text => cases hn

/-- In a fused tree a conditional behind a lone compare carries that very comparison. -/
theorem Tree.leading_of_fuse {s : Stream} {t : Tree} {c nested : Conditional} {h : Nat}
    (hc : c ∈ Tree.conditionals (t.fuse s)) (hl : c.leading? s = some (h, nested)) :
    nested.test.comparison = some h ∧ h ∈ Tree.fusedAfter s none t := by
  obtain ⟨-, b, ho, hb, rfl⟩ := Conditional.leading?_eq_some hl
  obtain ⟨items, hi, hs⟩ := Tree.otherwise_of_fuseAfter t none hc
  rw [ho] at hi
  obtain ⟨n, rfl, hn⟩ := Tree.fuseAfter_eq_pair hi.symm
  have hcmp := Block.comparison?_of_isLoneCompare hb
  rw [hcmp] at hn
  obtain ⟨hcond, htest⟩ := Node.fuse_attach_eq_toNode hn.symm
  refine ⟨htest, hs ?_⟩
  simp [Tree.fusedAfter, Node.taken, hcond, hcmp]

def Tree.taken (offer : Option Nat) : List Item → List Nat
  | .node n :: _ => n.taken offer
  | _ => []

theorem Tree.mem_fusedAfter {s : Stream} {offer : Option Nat} {h : Nat} {items : List Item} :
    h ∈ Tree.fusedAfter s offer items ↔
      h ∈ Tree.taken offer items ∨ h ∈ Tree.fusedAfter s none items := by
  match items with
  | [] => simp [Tree.fusedAfter, Tree.taken]
  | .block b :: items => simp [Tree.fusedAfter, Tree.taken]
  | .node n :: items => simp [Tree.fusedAfter, Tree.taken, Node.taken]

theorem Tree.taken_none (items : List Item) : Tree.taken none items = [] := by
  match items with
  | [] => rfl
  | .block _ :: _ => rfl
  | .node n :: _ => exact n.taken_none

theorem Tree.taken_eq (offer : Option Nat) (items : List Item) :
    Tree.taken offer items = [] ∨ ∃ h, offer = some h ∧ Tree.taken offer items = [h] := by
  match items, offer with
  | [], _ => exact .inl rfl
  | .block _ :: _, _ => exact .inl rfl
  | .node n :: _, none => exact .inl n.taken_none
  | .node n :: _, some h =>
    cases hc : n.isConditional with
    | false => exact .inl (by simp [Tree.taken, Node.taken, hc])
    | true => exact .inr ⟨h, rfl, by simp [Tree.taken, Node.taken, hc]⟩

/-- A block states all it covers but what the conditional behind it takes. -/
theorem Block.filter_append_taken {b : Block} {s : Stream} {items : List Item} {stated : Nat → Bool}
    (hs : ∀ h ∈ b.handles, stated h = true ↔ h ∉ Tree.taken (b.comparison? s) items) :
    b.handles.filter stated ++ Tree.taken (b.comparison? s) items = b.handles := by
  obtain ht | ⟨h, hc, ht⟩ := Tree.taken_eq (b.comparison? s) items
  · rw [ht] at hs ⊢
    rw [List.append_nil, List.filter_eq_self]
    exact fun h hh => (hs h hh).mpr List.not_mem_nil
  · obtain ⟨hlt, rfl, -⟩ := Block.comparison?_eq_some hc
    rw [ht] at hs ⊢
    rw [Block.handles_eq_concat hlt] at hs ⊢
    have hlast : stated (b.stop - 1) = false := by
      rw [← Bool.not_eq_true, hs _ (by simp)]
      simp
    have hinit : (List.range' b.start (b.length - 1)).filter stated =
        List.range' b.start (b.length - 1) := by
      rw [List.filter_eq_self]
      intro k hk
      rw [hs k (List.mem_append_left _ hk), List.mem_singleton]
      have hm := List.mem_range'_1.mp hk
      rw [Block.length] at hm
      omega
    rw [List.filter_append, hinit, List.filter_cons_of_neg (by simp [hlast]), List.filter_nil,
      List.append_nil]

section Split

variable {stated : Nat → Bool} {cs ds fs gs : List Nat}

theorem stated_left (hn : (cs ++ ds).Nodup) (hg : gs ⊆ ds)
    (hs : ∀ h ∈ cs ++ ds, stated h = true ↔ h ∉ fs ++ gs) :
    ∀ h ∈ cs, stated h = true ↔ h ∉ fs := by
  intro h hh
  have hd : h ∉ gs := fun hm => List.disjoint_of_nodup_append hn hh (hg hm)
  rw [hs h (List.mem_append_left _ hh), List.mem_append]
  exact not_congr (or_iff_left hd)

theorem stated_right (hn : (cs ++ ds).Nodup) (hf : fs ⊆ cs)
    (hs : ∀ h ∈ cs ++ ds, stated h = true ↔ h ∉ fs ++ gs) :
    ∀ h ∈ ds, stated h = true ↔ h ∉ gs := by
  intro h hh
  have hd : h ∉ fs := fun hm => List.disjoint_of_nodup_append hn (hf hm) hh
  rw [hs h (List.mem_append_right _ hh), List.mem_append]
  exact not_congr (or_iff_right hd)

end Split

mutual

theorem Node.shown_fuse {s : Stream} {stated : Nat → Bool} : ∀ (n : Node) (offer : Option Nat),
    attached n.references = [] → (covered n.references).Nodup →
    (∀ h ∈ covered n.references, stated h = true ↔ h ∉ n.fused s) →
      shown stated ((n.fuse s).attach offer).references =
        n.taken offer ++ covered n.references
  | .seq items, offer, ha, hn, hs => by
    rw [Node.attach_of_not_conditional rfl]
    have hi := Tree.shown_fuseAfter items none ha hn hs (by simp)
    rwa [Tree.taken_none] at hi
  | .ifGoto test _, offer, ha, _, _ => by
    have hc : test.comparison = none := by simpa [Node.references] using ha
    simp [Node.fuse, Node.references, Node.taken, Node.isConditional, Node.test?, Test.offered, hc]
  | .andIf test, offer, ha, _, _ => by
    have hc : test.comparison = none := by simpa [Node.references] using ha
    simp [Node.fuse, Node.references, Node.taken, Node.isConditional, Node.test?, Test.offered, hc]
  | .ifElse test body otherwise, offer, ha, hn, hs => by
    simp only [Node.references, covered_append, attached_append, Test.covered_references,
      Test.attached_references, List.nil_append, List.append_eq_nil_iff,
      Option.toList_eq_nil_iff] at ha hn hs
    obtain ⟨⟨hc, hab⟩, hao⟩ := ha
    have hsb := stated_left hn (fun _ => Tree.mem_covered_of_fusedAfter) hs
    have hso := stated_right hn (fun _ => Tree.mem_covered_of_fusedAfter) hs
    have hb := Tree.shown_fuseAfter body none hab hn.of_append_left hsb (by simp)
    have ho := Tree.shown_fuseAfter otherwise none hao hn.of_append_right hso (by simp)
    rw [Tree.taken_none, List.nil_append] at hb ho
    simp [Node.fuse, Node.references, Node.taken, Node.isConditional, Node.test?, Test.offered,
      hc, hb, ho]
  | .jump _, offer, _, _, _ => by
    rw [Node.attach_of_not_conditional rfl]
    rfl
  | .loop body _ epilog, offer, ha, hn, hs => by
    simp only [Node.references, covered_append, attached_append,
      List.append_eq_nil_iff] at ha hn hs
    have hsb := stated_left hn (fun _ => mem_covered_of_fusedEpilog) hs
    have hse := stated_right hn (fun _ => Tree.mem_covered_of_fusedAfter) hs
    have hb := Tree.shown_fuseAfter body none ha.1 hn.of_append_left hsb (by simp)
    have he := shown_fuseEpilog epilog ha.2 hn.of_append_right hse
    rw [Tree.taken_none, List.nil_append] at hb
    rw [Node.attach_of_not_conditional rfl]
    simp [Node.fuse, Node.references, Node.taken, Node.isConditional, Node.test?, hb, he]
  | .comment _, offer, _, _, _ => by
    rw [Node.attach_of_not_conditional rfl]
    rfl

/-- A fused list of items without comparisons shows its handles in order, behind the one that it
takes from the block before it. -/
theorem Tree.shown_fuseAfter {s : Stream} {stated : Nat → Bool} : ∀ (items : List Item)
    (offer : Option Nat), Reference.attached (Tree.references items) = [] →
    (Reference.covered (Tree.references items)).Nodup →
    (∀ h ∈ Reference.covered (Tree.references items),
      stated h = true ↔ h ∉ Tree.fusedAfter s offer items) →
    (∀ h, offer = some h → h ∉ Reference.covered (Tree.references items)) →
      shown stated (Tree.references (Tree.fuseAfter s offer items)) =
        Tree.taken offer items ++ Reference.covered (Tree.references items)
  | [], _, _, _, _, _ => rfl
  | .block b :: items, offer, ha, hn, hs, _ => by
    simp only [Tree.references, Item.references, List.singleton_append, covered_block,
      attached_block, Tree.fusedAfter] at ha hn hs
    have hd := List.disjoint_of_nodup_append hn
    have hr := Tree.shown_fuseAfter items (b.comparison? s) ha hn.of_append_right
      (fun h hh => hs h (List.mem_append_right _ hh))
      (fun h hh => hd (Block.mem_handles_of_comparison? hh))
    -- No later conditional takes a handle of this block.
    have hb := Block.filter_append_taken (fun h hh => by
      rw [hs h (List.mem_append_left _ hh), Tree.mem_fusedAfter]
      exact not_congr (or_iff_left fun hf => hd hh (Tree.mem_covered_of_fusedAfter hf)))
    simp only [Tree.fuseAfter, Tree.references, Item.references, List.singleton_append, shown, hr,
      covered_block]
    rw [← List.append_assoc, hb]
    rfl
  | .node n :: items, offer, ha, hn, hs, ho => by
    simp only [Tree.references, Item.references, covered_append, attached_append,
      List.append_eq_nil_iff] at ha hn hs ho
    -- The handle that is offered lies before all of these items.
    have hs' : ∀ h ∈ covered n.references ++ Reference.covered (Tree.references items),
        stated h = true ↔ h ∉ n.fused s ++ Tree.fusedAfter s none items := by
      intro h hh
      have ht : h ∉ n.taken offer := fun hm => ho h (Node.mem_taken hm) hh
      rw [hs h hh, Tree.fusedAfter, List.append_assoc, List.mem_append]
      exact not_congr (or_iff_right ht)
    have hsn := stated_left hn (fun _ => Tree.mem_covered_of_fusedAfter) hs'
    have hsi := stated_right hn (fun _ => Node.mem_covered_of_fused) hs'
    have hnode := Node.shown_fuse n offer ha.1 hn.of_append_left hsn
    have hrest := Tree.shown_fuseAfter items none ha.2 hn.of_append_right hsi (by simp)
    rw [Tree.taken_none, List.nil_append] at hrest
    simp only [Tree.fuseAfter, Tree.references, Item.references, shown_append, covered_append,
      hnode, hrest, Tree.taken, List.append_assoc]

theorem shown_fuseEpilog {s : Stream} {stated : Nat → Bool} : ∀ epilog : Option Node,
    attached (epilogReferences epilog) = [] → (covered (epilogReferences epilog)).Nodup →
    (∀ h ∈ covered (epilogReferences epilog), stated h = true ↔ h ∉ fusedEpilog s epilog) →
      shown stated (epilogReferences (fuseEpilog s epilog)) = covered (epilogReferences epilog)
  | none, _, _, _ => rfl
  | some n, ha, hn, hs => by
    have hr := Node.shown_fuse n none ha hn hs
    rwa [Node.taken_none] at hr

end

theorem Tree.mem_fusedAddresses {t : Tree} {s : Stream} {a : UInt64} :
    a ∈ t.fusedAddresses s ↔
      ∃ h ∈ Tree.fusedAfter s none t, ∃ i, s.get? h = some i ∧ i.address = a := by
  simp only [Tree.fusedAddresses, List.mem_filterMap, Option.map_eq_some_iff]

theorem Marks.contains_foldl_insert (m : Marks) (as : List UInt64) (x : UInt64) :
    (as.foldl Marks.insert m).contains x = true ↔ m.contains x = true ∨ x ∈ as := by
  induction as generalizing m with
  | nil => simp
  | cons a as ih =>
    rw [List.foldl_cons, ih, Marks.contains_insert, Bool.or_eq_true, beq_iff_eq, List.mem_cons]
    tauto

theorem Findings.contains_fuse (f : Findings) (s : Stream) (t : Tree) (a : UInt64) :
    (f.fuse s t).fused.contains a = true ↔ f.fused.contains a = true ∨ a ∈ t.fusedAddresses s :=
  Marks.contains_foldl_insert f.fused _ a

end Pseudocode
