import Pseudocode.Tree.Reference
import Pseudocode.Tree.View

namespace Pseudocode

theorem Block.of_isLoneCompare {b : Block} {s : Stream} (hc : b.isLoneCompare s = true) :
    b.length = 1 ∧ ∃ i, s.get? b.start = some i ∧ (i.operation == .compare) = true := by
  rw [isLoneCompare, Bool.and_eq_true, beq_iff_eq] at hc
  exact ⟨hc.1, (Option.any_eq_true _ _).mp hc.2⟩

namespace Conditional

def toNode (c : Conditional) : Node :=
  .ifElse c.test c.body c.otherwise

/-- The comparison in front of the conditional that continues the chain, and that conditional. -/
def leading? (c : Conditional) (s : Stream) : Option (Nat × Conditional) :=
  match (c.view s).arm with
  | .elseIf (some h) nested => some (h, nested)
  | _ => none

end Conditional

namespace ElseArm

/-- An alternative is empty, one conditional, one conditional behind a lone compare, or anything
else. -/
theorem ofItems_cases (s : Stream) (items : List Item) :
    (items = [] ∧ ofItems s items = .none) ∨
    (∃ c : Conditional, items = [.node c.toNode] ∧ ofItems s items = .elseIf Option.none c) ∨
    (∃ (b : Block) (c : Conditional), items = [.block b, .node c.toNode] ∧
      b.isLoneCompare s = true ∧ ofItems s items = .elseIf (some b.start) c) ∨
    (items ≠ [] ∧ ofItems s items = .block items) := by
  unfold ofItems
  split
  · exact .inl ⟨rfl, rfl⟩
  · next test body otherwise => exact .inr (.inl ⟨⟨test, body, otherwise⟩, rfl, rfl⟩)
  · next b test body otherwise =>
    split
    next hc => exact .inr (.inr (.inl ⟨b, ⟨test, body, otherwise⟩, rfl, hc, rfl⟩))
    next => exact .inr (.inr (.inr ⟨by simp, rfl⟩))
  · next hne _ _ => exact .inr (.inr (.inr ⟨hne, rfl⟩))

end ElseArm

namespace Conditional

theorem view_of_body_nil {c : Conditional} (hb : c.body = []) (s : Stream) :
    c.view s = ⟨c.test.condition, true, .none⟩ := by
  simp [view, hb]

theorem view_of_body_ne_nil {c : Conditional} (hb : c.body ≠ []) (s : Stream) :
    c.view s = ⟨c.test.condition.inverse, false, .ofItems s c.otherwise⟩ := by
  simp [view, hb]

theorem otherwise_of_arm_none {c : Conditional} {s : Stream} (hb : c.body ≠ [])
    (ha : (c.view s).arm = .none) : c.otherwise = [] := by
  rw [view_of_body_ne_nil hb] at ha
  obtain ⟨ho, -⟩ | ⟨d, -, h⟩ | ⟨b, d, -, -, h⟩ | ⟨-, h⟩ := ElseArm.ofItems_cases s c.otherwise
  · exact ho
  all_goals rw [h] at ha; cases ha

theorem otherwise_of_arm_block {c : Conditional} {s : Stream} {items : List Item}
    (ha : (c.view s).arm = .block items) : items = c.otherwise := by
  by_cases hb : c.body = []
  · rw [view_of_body_nil hb] at ha
    cases ha
  · rw [view_of_body_ne_nil hb] at ha
    obtain ⟨-, h⟩ | ⟨d, -, h⟩ | ⟨b, d, -, -, h⟩ | ⟨-, h⟩ := ElseArm.ofItems_cases s c.otherwise
    all_goals rw [h] at ha; cases ha
    rfl

/-- What is chained is the whole alternative, apart from a lone compare in front of it. -/
theorem otherwise_of_arm_elseIf {c nested : Conditional} {s : Stream} {leading : Option Nat}
    (ha : (c.view s).arm = .elseIf leading nested) :
    (leading = none ∧ c.otherwise = [.node nested.toNode]) ∨
      ∃ b, leading = some b.start ∧ b.isLoneCompare s = true ∧
        c.otherwise = [.block b, .node nested.toNode] := by
  by_cases hb : c.body = []
  · rw [view_of_body_nil hb] at ha
    cases ha
  · rw [view_of_body_ne_nil hb] at ha
    obtain ⟨-, h⟩ | ⟨d, ho, h⟩ | ⟨b, d, ho, hc, h⟩ | ⟨-, h⟩ :=
      ElseArm.ofItems_cases s c.otherwise
    all_goals rw [h] at ha; cases ha
    · exact .inl ⟨rfl, ho⟩
    · exact .inr ⟨b, rfl, hc, ho⟩

theorem leading?_eq_some {c nested : Conditional} {s : Stream} {h : Nat}
    (hl : c.leading? s = some (h, nested)) :
    c.body ≠ [] ∧ ∃ b, c.otherwise = [.block b, .node nested.toNode] ∧
      b.isLoneCompare s = true ∧ h = b.start := by
  unfold leading? at hl
  split at hl
  next k d ha =>
    cases hl
    refine ⟨fun hb => ?_, ?_⟩
    · rw [view_of_body_nil hb] at ha
      cases ha
    · obtain ⟨hn, -⟩ | ⟨b, hk, hc, ho⟩ := otherwise_of_arm_elseIf ha
      · cases hn
      · exact ⟨b, ho, hc, Option.some.inj hk⟩
  next => cases hl

end Conditional

mutual

theorem Node.references_conditional {c : Conditional} : ∀ n : Node, c ∈ n.conditionals →
    c.toNode.references ⊆ n.references
  | .seq items, hc => Tree.references_conditional items hc
  | .ifElse test body otherwise, hc => by
    simp only [Node.conditionals, List.mem_cons, List.mem_append] at hc
    obtain rfl | hc | hc := hc
    · exact List.Subset.refl _
    · have hb := Tree.references_conditional body hc
      exact fun r hr => by simp [Node.references, hb hr]
    · have ho := Tree.references_conditional otherwise hc
      exact fun r hr => by simp [Node.references, ho hr]
  | .loop body infinite epilog, hc => by
    obtain hc | hc := List.mem_append.mp hc
    · exact List.subset_append_of_subset_left _ (Tree.references_conditional body hc)
    · exact List.subset_append_of_subset_right _ (epilogReferences_conditional epilog hc)
  | .ifGoto .., hc | .andIf _, hc | .jump _, hc | .comment _, hc => by cases hc

theorem Tree.references_conditional {c : Conditional} : ∀ items : List Item,
    c ∈ Tree.conditionals items → c.toNode.references ⊆ Tree.references items
  | [], hc => by cases hc
  | .block b :: items, hc =>
    List.subset_append_of_subset_right _ (Tree.references_conditional items hc)
  | .node n :: items, hc => by
    obtain hc | hc := List.mem_append.mp hc
    · exact List.subset_append_of_subset_left _ (Node.references_conditional n hc)
    · exact List.subset_append_of_subset_right _ (Tree.references_conditional items hc)

theorem epilogReferences_conditional {c : Conditional} : ∀ epilog : Option Node,
    c ∈ epilogConditionals epilog → c.toNode.references ⊆ epilogReferences epilog
  | none, hc => by cases hc
  | some n, hc => Node.references_conditional n hc

end

theorem Conditional.references_of_leading? {c nested : Conditional} {s : Stream} {h : Nat}
    (hl : c.leading? s = some (h, nested)) :
    (∃ b, .block b ∈ c.toNode.references ∧ h ∈ b.handles) ∧
      nested.test.references ⊆ c.toNode.references := by
  obtain ⟨-, b, ho, hlone, rfl⟩ := leading?_eq_some hl
  have hr : Tree.references c.otherwise = .block b :: nested.toNode.references := by
    rw [ho]
    simp [Tree.references, Item.references]
  refine ⟨⟨b, by simp [toNode, Node.references, hr], ?_⟩, fun r hm => ?_⟩
  · simp [Block.handles, (Block.of_isLoneCompare hlone).1]
  · rw [toNode, Node.references, hr]
    simp [toNode, Node.references, hm]

end Pseudocode
