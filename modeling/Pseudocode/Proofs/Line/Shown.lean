import Pseudocode.Line.Layout
import Pseudocode.Proofs.Recovery.Fusion

namespace Pseudocode

def Stream.states (s : Stream) (fused : Marks) (handle : Nat) : Bool :=
  (s.get? handle).any fun i => !fused.contains i.address

namespace Line

/-- The instructions that lines show, as statements or as tests, in the order of the lines. -/
def handles (lines : List Line) : List Nat :=
  lines.filterMap fun line => line.content.shown?

@[simp] theorem handles_nil : handles [] = [] := rfl

@[simp] theorem handles_append (ls ms : List Line) :
    handles (ls ++ ms) = handles ls ++ handles ms :=
  List.filterMap_append

theorem handles_cons (line : Line) (ls : List Line) :
    handles (line :: ls) = line.content.shown?.toList ++ handles ls := by
  cases h : line.content.shown? <;> simp [handles, h]

@[simp] theorem handles_echoes (s : Stream) (depth : Nat) (tested : Option Nat) (jump : Nat) :
    handles (echoes s depth tested jump) = [] := by
  rw [handles, echoes, List.filterMap_map]
  exact List.filterMap_eq_nil_iff.mpr fun i _ => rfl

theorem handles_ofBlock (s : Stream) (fused : Marks) (depth : Nat) (b : Block) :
    handles (ofBlock s fused depth b) = b.handles.filter (s.states fused) := by
  rw [handles, ofBlock, Stream.run_eq, List.filterMap_filterMap, List.filterMap_filterMap,
    Block.handles, Block.length, ← List.filterMap_eq_filter]
  refine List.filterMap_congr fun h _ => ?_
  cases hi : s.get? h with
  | none => simp [Stream.states, hi, Option.guard]
  | some i =>
    cases hc : fused.contains i.address <;>
      simp [Stream.states, hi, hc, Option.guard, Content.shown?]

end Line

open Line

mutual

theorem Node.handles_lines_depth (s : Stream) (fused : Marks) (d e : Nat) : ∀ (n : Node)
    (a : Approach), handles (n.lines s fused d a) = handles (n.lines s fused e a)
  | .seq items, _ => Tree.handles_lines_depth s fused d e items
  | .ifGoto test target, _ => by simp [Node.lines, handles_cons, Content.shown?]
  | .andIf test, _ => by simp [Node.lines, handles_cons, Content.shown?]
  | .ifElse test body otherwise, a => by
    have hb := Tree.handles_lines_depth s fused (d + 1) (e + 1) body
    have ho := Tree.handles_lines_depth s fused (d + 1) (e + 1) otherwise
    have hc := fun l => handles_chainLines_depth s fused d e l otherwise
    simp only [Node.lines, handles_append, handles_echoes]
    generalize Conditional.view ⟨test, body, otherwise⟩ s = view
    obtain ⟨condition, swapped, arm⟩ := view
    cases swapped <;> cases arm <;> simp [handles_cons, Content.shown?, hb, ho, hc]
  | .jump target, _ => rfl
  | .loop body infinite epilog, _ => by
    have hb := Tree.handles_lines_depth s fused (d + 1) (e + 1) body
    have he := handles_epilogLines_depth s fused d e epilog
    simp [Node.lines, handles_cons, Content.shown?, hb, he]
  | .comment text, _ => rfl

theorem Tree.handles_lines_depth (s : Stream) (fused : Marks) (d e : Nat) : ∀ items : List Item,
    handles (Tree.lines s fused d items) = handles (Tree.lines s fused e items)
  | [] => rfl
  | .block b :: items => by
    have hr := Tree.handles_lines_depth s fused d e items
    simp [Tree.lines, Item.lines, handles_ofBlock, hr]
  | .node n :: items => by
    have hn := Node.handles_lines_depth s fused d e n .plain
    have hr := Tree.handles_lines_depth s fused d e items
    simp [Tree.lines, Item.lines, hn, hr]

theorem handles_epilogLines_depth (s : Stream) (fused : Marks) (d e : Nat) :
    ∀ epilog : Option Node,
      handles (epilogLines s fused d epilog) = handles (epilogLines s fused e epilog)
  | none => rfl
  | some n => Node.handles_lines_depth s fused d e n .plain

theorem handles_chainLines_depth (s : Stream) (fused : Marks) (d e : Nat) (leading : Option Nat) :
    ∀ items : List Item,
      handles (chainLines s fused d leading items) = handles (chainLines s fused e leading items)
  | [] => rfl
  | .block _ :: items => handles_chainLines_depth s fused d e leading items
  | .node n :: _ => Node.handles_lines_depth s fused d e n (.chained leading)

end

theorem Conditional.handles_lines_chained (c : Conditional) (s : Stream) (fused : Marks) (d : Nat)
    (leading : Option Nat) :
    handles (c.toNode.lines s fused d (.chained leading)) =
      (if c.test.comparison = none then leading.toList else []) ++
        handles (c.toNode.lines s fused d .plain) := by
  simp only [toNode, Node.lines, handles_append, handles_echoes, handles_cons, Content.shown?,
    Approach.tested]
  cases c.test.comparison <;> simp

namespace Conditional

variable {c nested : Conditional} {s : Stream} {fused : Marks} {h : Nat}

theorem handles_lines_of_body_nil (hn : c.body = []) (d : Nat) :
    handles (c.toNode.lines s fused d .plain) =
      c.test.comparison.toList ++ handles (Tree.lines s fused d c.otherwise) := by
  have ho := Tree.handles_lines_depth s fused (d + 1) d c.otherwise
  simp [toNode, Node.lines, handles_cons, Content.shown?, Approach.tested, view_of_body_nil hn, ho]

theorem handles_lines_of_body_ne_nil (hn : c.body ≠ []) (d : Nat) :
    handles (c.toNode.lines s fused d .plain) =
      c.test.comparison.toList ++ handles (Tree.lines s fused d c.body) ++
        match ElseArm.ofItems s c.otherwise with
        | .none => []
        | .block _ => handles (Tree.lines s fused d c.otherwise)
        | .elseIf leading _ => handles (chainLines s fused d leading c.otherwise) := by
  have hb := Tree.handles_lines_depth s fused (d + 1) d c.body
  have ho := Tree.handles_lines_depth s fused (d + 1) d c.otherwise
  simp only [toNode, Node.lines, handles_append, handles_echoes, handles_cons, Content.shown?,
    Approach.tested, view_of_body_ne_nil hn]
  cases ElseArm.ofItems s c.otherwise <;> simp [handles_cons, Content.shown?, hb, ho]

theorem handles_lines_of_leading?_eq_none (hl : c.leading? s = none) (d : Nat) :
    handles (c.toNode.lines s fused d .plain) =
      c.test.comparison.toList ++ handles (Tree.lines s fused d c.body) ++
        handles (Tree.lines s fused d c.otherwise) := by
  by_cases hn : c.body = []
  · rw [handles_lines_of_body_nil hn, hn]
    simp [Tree.lines]
  · rw [leading?, view_of_body_ne_nil hn] at hl
    rw [handles_lines_of_body_ne_nil hn]
    congr 1
    obtain ⟨hi, ha⟩ | ⟨e, hi, ha⟩ | ⟨b, e, -, -, ha⟩ | ⟨-, ha⟩ :=
      ElseArm.ofItems_cases s c.otherwise
    · rw [hi] at ha
      simp only [hi, ha, Tree.lines, handles_nil]
    · have hchain := handles_lines_chained e s fused d none
      simp only [Option.toList_none, ite_self, List.nil_append] at hchain
      rw [hi] at ha
      simp only [hi, ha, chainLines, hchain, Tree.lines, Item.lines, List.append_nil]
    · simp [ha] at hl
    · simp only [ha]

theorem handles_lines_of_leading?_eq_some (hl : c.leading? s = some (h, nested)) (d : Nat) :
    handles (c.toNode.lines s fused d .plain) =
      c.test.comparison.toList ++ handles (Tree.lines s fused d c.body) ++
        ((if nested.test.comparison = none then [h] else []) ++
          handles (nested.toNode.lines s fused d .plain)) := by
  obtain ⟨hn, b, hi, hlone, rfl⟩ := leading?_eq_some hl
  have ha : ElseArm.ofItems s [.block b, .node nested.toNode] = .elseIf (some b.start) nested := by
    rw [toNode, ElseArm.ofItems, if_pos hlone]
  have hchain := handles_lines_chained nested s fused d (some b.start)
  rw [handles_lines_of_body_ne_nil hn]
  simp only [hi, ha, chainLines, hchain, Option.toList_some]

theorem handles_otherwise_of_leading (hl : c.leading? s = some (h, nested)) (d : Nat) :
    handles (Tree.lines s fused d c.otherwise) =
      (if s.states fused h = true then [h] else []) ++
        handles (nested.toNode.lines s fused d .plain) := by
  obtain ⟨-, b, hi, hlone, rfl⟩ := leading?_eq_some hl
  obtain ⟨hlen, -⟩ := Block.of_isLoneCompare hlone
  rw [hi]
  simp only [Tree.lines, Item.lines, handles_append, handles_ofBlock,
    Block.handles_of_length_one hlen, List.filter_cons, List.filter_nil, List.append_nil]

/-- The comparison in front of a chained conditional is shown once: by the conditional, which then
has no other, or else it is fused. -/
def Settled (c : Conditional) (s : Stream) (fused : Marks) : Prop :=
  ∀ h nested, c.leading? s = some (h, nested) →
    (nested.test.comparison = none ↔ s.states fused h = true)

theorem handles_lines_of_settled (hs : c.Settled s fused) (d : Nat) :
    handles (c.toNode.lines s fused d .plain) =
      c.test.comparison.toList ++ handles (Tree.lines s fused d c.body) ++
        handles (Tree.lines s fused d c.otherwise) := by
  cases hl : c.leading? s with
  | none => exact handles_lines_of_leading?_eq_none hl d
  | some p =>
    obtain ⟨h, nested⟩ := p
    rw [handles_lines_of_leading?_eq_some hl, handles_otherwise_of_leading hl]
    simp only [hs h nested hl]

/-- The comparison in front of a chained conditional that has one of its own. -/
def overridden (c : Conditional) (s : Stream) : List Nat :=
  match c.leading? s with
  | none => []
  | some (h, nested) => if nested.test.comparison = none then [] else [h]

theorem states_leading (hl : c.leading? s = some (h, nested)) : s.states .empty h = true := by
  obtain ⟨-, b, -, hlone, rfl⟩ := leading?_eq_some hl
  obtain ⟨-, i, hi, -⟩ := Block.of_isLoneCompare hlone
  rw [Stream.states, hi]
  rfl

theorem count_handles_lines (c : Conditional) (s : Stream) (d k : Nat) :
    (handles (c.toNode.lines s .empty d .plain)).count k + (c.overridden s).count k =
      c.test.comparison.toList.count k + (handles (Tree.lines s .empty d c.body)).count k +
        (handles (Tree.lines s .empty d c.otherwise)).count k := by
  cases hl : c.leading? s with
  | none =>
    rw [handles_lines_of_leading?_eq_none hl]
    simp [overridden, hl, Nat.add_assoc]
  | some p =>
    obtain ⟨h, nested⟩ := p
    rw [handles_lines_of_leading?_eq_some hl, handles_otherwise_of_leading hl,
      if_pos (states_leading hl)]
    simp only [overridden, hl]
    cases nested.test.comparison with
    | none => simp only [if_true, List.count_append, List.count_nil]; omega
    | some k' =>
      simp only [reduceCtorEq, if_false, List.nil_append, List.count_append]
      omega

end Conditional

mutual

theorem Node.handles_lines {s : Stream} {fused : Marks} (d : Nat) : ∀ n : Node,
    (∀ c ∈ n.conditionals, c.Settled s fused) →
      handles (n.lines s fused d .plain) = Reference.shown (s.states fused) n.references
  | .seq items, hs => Tree.handles_lines d items hs
  | .ifGoto test target, _ => by
    simp [Node.lines, Node.references, handles_cons, Content.shown?]
  | .andIf test, _ => by simp [Node.lines, Node.references, handles_cons, Content.shown?]
  | .ifElse test body otherwise, hs => by
    have hb := Tree.handles_lines d body fun c hc => hs c (by simp [Node.conditionals, hc])
    have ho := Tree.handles_lines d otherwise fun c hc => hs c (by simp [Node.conditionals, hc])
    have hc := Conditional.handles_lines_of_settled
      (hs ⟨test, body, otherwise⟩ (by simp [Node.conditionals])) d
    rw [Conditional.toNode] at hc
    simp only [hc, hb, ho, Node.references, Reference.shown_append, Test.shown_references]
  | .jump target, _ => rfl
  | .loop body infinite epilog, hs => by
    have hd := Tree.handles_lines_depth s fused (d + 1) d body
    have hb := Tree.handles_lines d body fun c hc => hs c (by simp [Node.conditionals, hc])
    have he := handles_epilogLines d epilog fun c hc => hs c (by simp [Node.conditionals, hc])
    simp [Node.lines, Node.references, handles_cons, Content.shown?, hd, hb, he]
  | .comment text, _ => rfl

/-- The lines of a settled tree show what its references show. -/
theorem Tree.handles_lines {s : Stream} {fused : Marks} (d : Nat) : ∀ items : List Item,
    (∀ c ∈ Tree.conditionals items, c.Settled s fused) →
      handles (Tree.lines s fused d items) =
        Reference.shown (s.states fused) (Tree.references items)
  | [], _ => rfl
  | .block b :: items, hs => by
    have hr := Tree.handles_lines d items hs
    simp [Tree.lines, Item.lines, Tree.references, Item.references, handles_ofBlock,
      Reference.shown, hr]
  | .node n :: items, hs => by
    have hn := Node.handles_lines d n fun c hc =>
      hs c (by simp [Tree.conditionals, Item.conditionals, hc])
    have hr := Tree.handles_lines d items fun c hc => hs c (by simp [Tree.conditionals, hc])
    simp [Tree.lines, Item.lines, Tree.references, Item.references, hn, hr]

theorem handles_epilogLines {s : Stream} {fused : Marks} (d : Nat) : ∀ epilog : Option Node,
    (∀ c ∈ epilogConditionals epilog, c.Settled s fused) →
      handles (epilogLines s fused d epilog) =
        Reference.shown (s.states fused) (epilogReferences epilog)
  | none, _ => rfl
  | some n, hs => Node.handles_lines d n hs

end

/-- The comparisons in front of chained conditionals that have comparisons of their own. -/
def Tree.overridden (t : Tree) (s : Stream) : List Nat :=
  (Tree.conditionals t).flatMap fun c => c.overridden s

mutual

theorem Node.count_handles_lines (s : Stream) (d k : Nat) : ∀ n : Node,
    (handles (n.lines s .empty d .plain)).count k +
        (n.conditionals.flatMap fun c => c.overridden s).count k =
      (Reference.shown (s.states .empty) n.references).count k
  | .seq items => Tree.count_handles_lines s d k items
  | .ifGoto test target => by
    simp [Node.lines, Node.references, Node.conditionals, handles_cons, Content.shown?]
  | .andIf test => by
    simp [Node.lines, Node.references, Node.conditionals, handles_cons, Content.shown?]
  | .ifElse test body otherwise => by
    have hb := Tree.count_handles_lines s d k body
    have ho := Tree.count_handles_lines s d k otherwise
    have hc := Conditional.count_handles_lines ⟨test, body, otherwise⟩ s d k
    simp only [Conditional.toNode] at hc
    simp only [Node.conditionals, Node.references, Reference.shown_append, Test.shown_references,
      List.flatMap_cons, List.flatMap_append, List.count_append, Tree.overridden] at hb ho ⊢
    omega
  | .jump target => rfl
  | .loop body infinite epilog => by
    have hd := Tree.handles_lines_depth s .empty (d + 1) d body
    have hb := Tree.count_handles_lines s d k body
    have he := count_handles_epilogLines s d k epilog
    simp only [Node.lines, Node.conditionals, Node.references, handles_append, handles_cons,
      handles_nil, Content.shown?, Option.toList_none, List.nil_append, List.append_nil, hd,
      Reference.shown_append, List.flatMap_append, List.count_append, Tree.overridden] at hb he ⊢
    omega
  | .comment text => rfl

/-- When nothing is fused, the lines of a tree leave out what is overridden, and nothing else. -/
theorem Tree.count_handles_lines (s : Stream) (d k : Nat) : ∀ items : List Item,
    (handles (Tree.lines s .empty d items)).count k + (Tree.overridden items s).count k =
      (Reference.shown (s.states .empty) (Tree.references items)).count k
  | [] => rfl
  | .block b :: items => by
    have hr := Tree.count_handles_lines s d k items
    simp only [Tree.lines, Item.lines, Tree.references, Item.references, Tree.overridden,
      Tree.conditionals, Item.conditionals, handles_append, handles_ofBlock, List.singleton_append,
      Reference.shown, List.count_append, List.nil_append] at hr ⊢
    omega
  | .node n :: items => by
    have hn := Node.count_handles_lines s d k n
    have hr := Tree.count_handles_lines s d k items
    simp only [Tree.lines, Item.lines, Tree.references, Item.references, Tree.overridden,
      Tree.conditionals, Item.conditionals, handles_append, Reference.shown_append,
      List.flatMap_append, List.count_append] at hr ⊢
    omega

theorem count_handles_epilogLines (s : Stream) (d k : Nat) : ∀ epilog : Option Node,
    (handles (epilogLines s .empty d epilog)).count k +
        ((epilogConditionals epilog).flatMap fun c => c.overridden s).count k =
      (Reference.shown (s.states .empty) (epilogReferences epilog)).count k
  | none => rfl
  | some n => Node.count_handles_lines s d k n

end

theorem Stream.states_fuse {s : Stream} {h : Nat} (hlt : h < s.length) (stem : String) (t : Tree) :
    s.states ((Findings.start stem).fuse s t).fused h = true ↔ h ∉ Tree.fusedAfter s none t := by
  obtain ⟨i, hi⟩ := Stream.exists_get? hlt
  have hm := Findings.contains_fuse (Findings.start stem) s t i.address
  rw [Stream.states, hi, Option.any_some, Bool.not_eq_true', ← Bool.not_eq_true, hm]
  refine not_congr ⟨?_, fun hf => .inr (Tree.mem_fusedAddresses.mpr ⟨h, hf, i, hi, rfl⟩)⟩
  rintro (hs | ha)
  · cases hs
  · obtain ⟨k, hk, j, hj, ha⟩ := Tree.mem_fusedAddresses.mp ha
    exact Stream.handle_eq_of_address hj hi ha ▸ hk

end Pseudocode
