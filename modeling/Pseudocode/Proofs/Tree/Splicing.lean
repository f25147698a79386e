import Pseudocode.Colors
import Pseudocode.Proofs.Tree.Reference
import Pseudocode.Recovery.Findings

namespace Pseudocode

mutual

/-- Splices the branches inside a node. A sequence itself stays one node, as the epilog of a loop
has to. -/
def Node.splice : Node → Node
  | .seq items => .seq (Tree.spliceOnto [] items)
  | .ifElse test body otherwise =>
    .ifElse test (Tree.spliceOnto [] body) (Tree.spliceOnto [] otherwise)
  | .loop body infinite epilog =>
    .loop (Tree.spliceOnto [] body) infinite (spliceEpilog epilog)
  | .ifGoto test target => .ifGoto test target
  | .andIf test => .andIf test
  | .jump target => .jump target
  | .comment text => .comment text

def Tree.spliceOnto (t : Tree) : List Item → Tree
  | [] => t
  | .block b :: items => Tree.spliceOnto (t.addBlock b) items
  | .node n :: items => Tree.spliceOnto (t.addNode n.splice) items

def spliceEpilog : Option Node → Option Node
  | none => none
  | some n => some n.splice

end

/-- The tree with the items of all its sequences in their places. -/
def Tree.splice (t : Tree) : Tree :=
  Tree.spliceOnto [] t

def Node.isSequence : Node → Bool
  | .seq _ => true
  | _ => false

mutual

def Item.isSpliced : Item → Bool
  | .block _ => true
  | .node n => !n.isSequence && n.isSpliced

def Node.isSpliced : Node → Bool
  | .seq items => Tree.isSpliced items
  | .ifElse _ body otherwise => Tree.isSpliced body && Tree.isSpliced otherwise
  | .loop body _ epilog => Tree.isSpliced body && epilogIsSpliced epilog
  | .ifGoto .. | .andIf _ | .jump _ | .comment _ => true

def Tree.isSpliced : List Item → Bool
  | [] => true
  | item :: items => item.isSpliced && Tree.isSpliced items

def epilogIsSpliced : Option Node → Bool
  | none => true
  | some n => n.isSpliced

end

namespace Tree

theorem addNode_of_not_isSequence (t : Tree) {n : Node} (hn : n.isSequence = false) :
    addNode t n = t ++ [.node n] := by
  cases n with
  | seq items => cases hn
  | _ => rfl

theorem isSpliced_append (t u : Tree) :
    isSpliced (t ++ u) = (isSpliced t && isSpliced u) := by
  induction t with
  | nil => rfl
  | cons item t ih => rw [List.cons_append, isSpliced, isSpliced, ih, Bool.and_assoc]

theorem isSpliced_addNode (t : Tree) {n : Node} (hn : n.isSpliced = true) :
    isSpliced (addNode t n) = isSpliced t := by
  cases n with
  | seq items => rw [addNode, isSpliced_append, show isSpliced items = true from hn, Bool.and_true]
  | _ =>
    rw [addNode_of_not_isSequence t rfl, isSpliced_append]
    simp [isSpliced, Item.isSpliced, Node.isSequence, hn]

end Tree

mutual

theorem Node.isSpliced_splice : ∀ n : Node, n.splice.isSpliced = true
  | .seq items => Tree.isSpliced_spliceOnto items [] rfl
  | .ifElse _ body otherwise => by
    rw [Node.splice, Node.isSpliced, Tree.isSpliced_spliceOnto body [] rfl,
      Tree.isSpliced_spliceOnto otherwise [] rfl]
    rfl
  | .loop body _ epilog => by
    rw [Node.splice, Node.isSpliced, Tree.isSpliced_spliceOnto body [] rfl,
      epilogIsSpliced_splice epilog]
    rfl
  | .ifGoto .. | .andIf _ | .jump _ | .comment _ => rfl

theorem Tree.isSpliced_spliceOnto : ∀ (items : List Item) (t : Tree), Tree.isSpliced t = true →
    Tree.isSpliced (Tree.spliceOnto t items) = true
  | [], _, ht => ht
  | .block b :: items, t, ht => by
    apply Tree.isSpliced_spliceOnto items
    rw [Tree.addBlock, Tree.isSpliced_append, ht]
    rfl
  | .node n :: items, t, ht => by
    apply Tree.isSpliced_spliceOnto items
    rw [Tree.isSpliced_addNode t (Node.isSpliced_splice n), ht]

theorem epilogIsSpliced_splice : ∀ epilog : Option Node,
    epilogIsSpliced (spliceEpilog epilog) = true
  | none => rfl
  | some n => Node.isSpliced_splice n

end

mutual

theorem Node.splice_of_isSpliced : ∀ n : Node, n.isSpliced = true → n.splice = n
  | .seq items, hn => by
    rw [Node.splice, Tree.spliceOnto_of_isSpliced items [] hn, List.nil_append]
  | .ifElse _ body otherwise, hn => by
    rw [Node.isSpliced, Bool.and_eq_true] at hn
    rw [Node.splice, Tree.spliceOnto_of_isSpliced body [] hn.1,
      Tree.spliceOnto_of_isSpliced otherwise [] hn.2, List.nil_append, List.nil_append]
  | .loop body _ epilog, hn => by
    rw [Node.isSpliced, Bool.and_eq_true] at hn
    rw [Node.splice, Tree.spliceOnto_of_isSpliced body [] hn.1,
      spliceEpilog_of_isSpliced epilog hn.2, List.nil_append]
  | .ifGoto .., _ | .andIf _, _ | .jump _, _ | .comment _, _ => rfl

theorem Tree.spliceOnto_of_isSpliced : ∀ (items : List Item) (t : Tree),
    Tree.isSpliced items = true → Tree.spliceOnto t items = t ++ items
  | [], t, _ => (List.append_nil t).symm
  | .block b :: items, t, hs => by
    rw [Tree.spliceOnto, Tree.spliceOnto_of_isSpliced items _ hs, Tree.addBlock, List.append_assoc]
    rfl
  | .node n :: items, t, hs => by
    rw [Tree.isSpliced, Item.isSpliced, Bool.and_eq_true, Bool.and_eq_true] at hs
    obtain ⟨⟨hseq, hn⟩, hs⟩ := hs
    rw [Tree.spliceOnto, Tree.spliceOnto_of_isSpliced items _ hs, Node.splice_of_isSpliced n hn,
      Tree.addNode_of_not_isSequence t (Bool.not_eq_true' _ ▸ hseq), List.append_assoc]
    rfl

theorem spliceEpilog_of_isSpliced : ∀ epilog : Option Node, epilogIsSpliced epilog = true →
    spliceEpilog epilog = epilog
  | none, _ => rfl
  | some n, hn => congrArg some (Node.splice_of_isSpliced n hn)

end

theorem Tree.splice_eq_self_iff (t : Tree) : t.splice = t ↔ Tree.isSpliced t = true := by
  constructor
  · intro h
    rw [← h]
    exact Tree.isSpliced_spliceOnto t [] rfl
  · intro h
    rw [Tree.splice, Tree.spliceOnto_of_isSpliced t [] h, List.nil_append]

/-- A reading of trees, item by item, to which a sequence is the same as its items. What it makes of
a conditional or a loop depends on the branches through their readings only. -/
structure Transparent {α : Type} (node : Node → List α) (tree : Tree → List α) : Prop where
  append : ∀ t u, tree (t ++ u) = tree t ++ tree u
  single : ∀ n, tree [.node n] = node n
  seq : ∀ items, node (.seq items) = tree items
  ifElse : ∀ test body body' otherwise otherwise', tree body = tree body' →
    tree otherwise = tree otherwise' →
      node (.ifElse test body otherwise) = node (.ifElse test body' otherwise')
  loop : ∀ body body' infinite epilog epilog', tree body = tree body' →
    epilog.map node = epilog'.map node →
      node (.loop body infinite epilog) = node (.loop body' infinite epilog')

namespace Transparent

variable {α : Type} {node : Node → List α} {tree : Tree → List α}

theorem nil (h : Transparent node tree) : tree [] = [] := by
  have ha := h.append [] []
  rwa [List.append_nil, List.self_eq_append_left] at ha

theorem addNode (h : Transparent node tree) (t : Tree) (n : Node) :
    tree (t.addNode n) = tree t ++ node n := by
  cases n with
  | seq items => rw [Tree.addNode, h.append, h.seq]
  | _ => rw [Tree.addNode_of_not_isSequence t rfl, h.append, h.single]

end Transparent

mutual

theorem Transparent.node_splice {α : Type} {node : Node → List α} {tree : Tree → List α}
    (h : Transparent node tree) : ∀ n : Node, node n.splice = node n
  | .seq items => by
    rw [Node.splice, h.seq, h.seq, Transparent.tree_spliceOnto h items [], h.nil, List.nil_append]
  | .ifElse test body otherwise => by
    apply h.ifElse
    · rw [Transparent.tree_spliceOnto h body [], h.nil, List.nil_append]
    · rw [Transparent.tree_spliceOnto h otherwise [], h.nil, List.nil_append]
  | .loop body infinite epilog => by
    apply h.loop
    · rw [Transparent.tree_spliceOnto h body [], h.nil, List.nil_append]
    · exact Transparent.map_spliceEpilog h epilog
  | .ifGoto .. | .andIf _ | .jump _ | .comment _ => rfl

theorem Transparent.tree_spliceOnto {α : Type} {node : Node → List α} {tree : Tree → List α}
    (h : Transparent node tree) : ∀ (items : List Item) (t : Tree),
      tree (Tree.spliceOnto t items) = tree t ++ tree items
  | [], t => by rw [Tree.spliceOnto, h.nil, List.append_nil]
  | .block b :: items, t => by
    rw [Tree.spliceOnto, Transparent.tree_spliceOnto h items, Tree.addBlock, h.append,
      List.append_assoc, ← h.append, List.singleton_append]
  | .node n :: items, t => by
    rw [Tree.spliceOnto, Transparent.tree_spliceOnto h items, h.addNode,
      Transparent.node_splice h n, ← h.single n, List.append_assoc, ← h.append,
      List.singleton_append]

theorem Transparent.map_spliceEpilog {α : Type} {node : Node → List α} {tree : Tree → List α}
    (h : Transparent node tree) : ∀ epilog : Option Node,
      (spliceEpilog epilog).map node = epilog.map node
  | none => rfl
  | some n => congrArg some (Transparent.node_splice h n)

end

theorem Transparent.tree_splice {α : Type} {node : Node → List α} {tree : Tree → List α}
    (h : Transparent node tree) (t : Tree) : tree t.splice = tree t := by
  rw [Tree.splice, h.tree_spliceOnto, h.nil, List.nil_append]

theorem transparent_references : Transparent Node.references Tree.references where
  append t u := by
    induction t with
    | nil => rfl
    | cons item t ih =>
      rw [List.cons_append, Tree.references, Tree.references, ih, List.append_assoc]
  single n := List.append_nil n.references
  seq _ := rfl
  ifElse test body body' otherwise otherwise' hb ho := by
    rw [Node.references, Node.references, hb, ho]
  loop body body' infinite epilog epilog' hb he := by
    have hr : ∀ e, epilogReferences e = (e.map Node.references).getD [] := by
      intro e
      cases e <;> rfl
    rw [Node.references, Node.references, hb, hr, hr, he]

theorem transparent_targets (s : Stream) (edges : Edges) :
    Transparent (Node.targets s edges) (Tree.targets s edges) where
  append t u := by
    induction t with
    | nil => rfl
    | cons item t ih => rw [List.cons_append, Tree.targets, Tree.targets, ih, List.append_assoc]
  single n := List.append_nil (n.targets s edges)
  seq _ := rfl
  ifElse test body body' otherwise otherwise' hb ho := by
    rw [Node.targets, Node.targets, hb, ho]
  loop body body' infinite epilog epilog' hb he := by
    have hr : ∀ e, epilogTargets s edges e = (e.map (Node.targets s edges)).getD [] := by
      intro e
      cases e <;> rfl
    rw [Node.targets, Node.targets, hb, hr, hr, he]

/-- Splicing leaves no sequence among the items of a tree, at any depth, and changes nothing else.
The check of the tree has the same result, error for error, every table gains the same slots, and
the same addresses have the same colours. -/
theorem Tree.splice_unnoticed (t : Tree) (s : Stream) (edges : Edges) (f : Findings) :
    Tree.isSpliced t.splice = true ∧ (t.splice = t ↔ Tree.isSpliced t = true) ∧
    t.splice.validate s = t.validate s ∧
    f.recoverSlots s t.splice = f.recoverSlots s t ∧
    f.slotCount s t.splice = f.slotCount s t ∧
    t.splice.colors s edges = t.colors s edges := by
  have hr : Tree.references t.splice = Tree.references t := transparent_references.tree_splice t
  have ha : t.splice.localAccesses s = t.localAccesses s := by
    rw [Tree.localAccesses, hr, Tree.localAccesses]
  have hf : f.recoverSlots s t.splice = f.recoverSlots s t := by
    rw [Findings.recoverSlots, ha, Findings.recoverSlots]
  refine ⟨Tree.isSpliced_spliceOnto t [] rfl, t.splice_eq_self_iff, ?_, hf, ?_, ?_⟩
  · rw [Tree.validate, Tree.check, Tree.fault?, hr]
    rfl
  · rw [Findings.slotCount, hf, Findings.slotCount]
  · rw [Tree.colors, (transparent_targets s edges).tree_splice, Tree.colors]

/-- Fusion notices: a conditional at the head of a sequence has no block before it until the
sequence is spliced. -/
example :
    let s : Stream := ⟨[⟨0x1000, 3, [], .compare, "cmp", [], .sequential⟩], rfl⟩
    let n : Node := .ifGoto ⟨0, .equal, none⟩ 0x1010
    Tree.attached (Tree.fuse [.block ⟨0, 1⟩, .node (.seq [.node n])] s) = [] ∧
      Tree.attached (Tree.fuse [.block ⟨0, 1⟩, .node n] s) = [0] := by
  decide

end Pseudocode
