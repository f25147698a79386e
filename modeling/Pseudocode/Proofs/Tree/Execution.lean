import Mathlib.Logic.Function.Iterate
import Pseudocode.Proofs.Tree.View

namespace Pseudocode

structure Flags where
  carry : Bool
  zero : Bool
  sign : Bool
  overflow : Bool
  parity : Bool
  deriving DecidableEq, Repr

namespace Condition

def holds (f : Flags) : Condition → Bool
  | .equal => f.zero
  | .notEqual => !f.zero
  | .above => !f.carry && !f.zero
  | .aboveOrEqual => !f.carry
  | .below => f.carry
  | .belowOrEqual => f.carry || f.zero
  | .greater => !f.zero && f.sign == f.overflow
  | .greaterOrEqual => f.sign == f.overflow
  | .less => f.sign != f.overflow
  | .lessOrEqual => f.zero || f.sign != f.overflow
  | .sign => f.sign
  | .notSign => !f.sign
  | .overflow => f.overflow
  | .notOverflow => !f.overflow
  | .parity => f.parity
  | .notParity => !f.parity

theorem holds_inverse (f : Flags) (c : Condition) : c.inverse.holds f = !c.holds f := by
  obtain ⟨carry, zero, sign, overflow, parity⟩ := f
  cases c <;> simp only [inverse, holds, Bool.not_not, Bool.not_and, Bool.not_or, bne]

end Condition

inductive Step
  | item (index : Nat)
  | body
  | otherwise
  | epilog
  deriving DecidableEq, Repr

/-- A place in a tree, by the steps that lead to it, the last one first. -/
abbrev Place := List Step

inductive Visit
  | block (place : Place) (b : Block)
  | node (place : Place) (n : Node)

/-- What decides on the course of an execution. Every decision may depend on the place and on all
that was passed before. -/
structure Environment where
  flags : Place → List Visit → Flags
  rounds : Place → List Visit → Nat
  leaves : Place → List Visit → Bool

structure Run where
  visits : List Visit
  left : Bool

namespace Run

def visit (r : Run) (v : Visit) : Run :=
  if r.left then r else { r with visits := v :: r.visits }

def depart (r : Run) (env : Environment) (place : Place) : Run :=
  { r with left := r.left || env.leaves place r.visits }

end Run

section Direct

variable (env : Environment)

mutual

/-- The jump of a conditional leads to the alternative, so that branch runs when the condition holds
and the body runs when it does not. -/
def Node.run (place : Place) : Node → Run → Run
  | .seq items, r => Tree.run place 0 items (r.visit (.node place (.seq items)))
  | .ifGoto test target, r => (r.visit (.node place (.ifGoto test target))).depart env place
  | .andIf test, r => (r.visit (.node place (.andIf test))).depart env place
  | .ifElse test body otherwise, r =>
    let r := r.visit (.node place (.ifElse test body otherwise))
    if test.condition.holds (env.flags place r.visits) then
      Tree.run (.otherwise :: place) 0 otherwise r
    else Tree.run (.body :: place) 0 body r
  | .jump target, r => (r.visit (.node place (.jump target))).depart env place
  | .loop body infinite epilog, r =>
    let r := r.visit (.node place (.loop body infinite epilog))
    epilogRun (.epilog :: place) epilog
      ((Tree.run (.body :: place) 0 body)^[env.rounds place r.visits] r)
  | .comment text, r => r.visit (.node place (.comment text))

/-- The items of a branch at `place`, of which the first has the number `index`. -/
def Tree.run (place : Place) (index : Nat) : List Item → Run → Run
  | [], r => r
  | .block b :: items, r =>
    Tree.run place (index + 1) items (r.visit (.block (.item index :: place) b))
  | .node n :: items, r => Tree.run place (index + 1) items (n.run (.item index :: place) r)

def epilogRun (place : Place) : Option Node → Run → Run
  | none, r => r
  | some n, r => n.run place r

end

end Direct

theorem Conditional.sizeOf_chained {c nested : Conditional} {s : Stream} {leading : Option Nat}
    (ha : (c.view s).arm = .elseIf leading nested) :
    sizeOf nested.toNode < sizeOf c.otherwise := by
  obtain ⟨-, ho⟩ | ⟨b, -, -, ho⟩ := otherwise_of_arm_elseIf ha
  · rw [ho]
    simp
    omega
  · rw [ho]
    simp
    omega

section Views

variable (env : Environment) (s : Stream)

def Run.visitLeading (r : Run) (place : Place) : Option Nat → Run
  | none => r
  | some h => r.visit (.block (.item 0 :: place) (.single h))

mutual

/-- A conditional is executed by its view: the first branch runs when the condition of the view
holds and the other arm when it does not. -/
def Node.runView (place : Place) : Node → Run → Run
  | .seq items, r => Tree.runView place 0 items (r.visit (.node place (.seq items)))
  | .ifGoto test target, r => (r.visit (.node place (.ifGoto test target))).depart env place
  | .andIf test, r => (r.visit (.node place (.andIf test))).depart env place
  | .ifElse test body otherwise, r =>
    let r := r.visit (.node place (.ifElse test body otherwise))
    let view := Conditional.view ⟨test, body, otherwise⟩ s
    if view.condition.holds (env.flags place r.visits) then
      if view.swapped then Tree.runView (.otherwise :: place) 0 otherwise r
      else Tree.runView (.body :: place) 0 body r
    else
      match _ha : view.arm with
      | .none => r
      | .block items => Tree.runView (.otherwise :: place) 0 items r
      | .elseIf leading nested =>
        Node.runView (.item leading.toList.length :: .otherwise :: place) nested.toNode
          (r.visitLeading (.otherwise :: place) leading)
  | .jump target, r => (r.visit (.node place (.jump target))).depart env place
  | .loop body infinite epilog, r =>
    let r := r.visit (.node place (.loop body infinite epilog))
    epilogRunView (.epilog :: place) epilog
      ((Tree.runView (.body :: place) 0 body)^[env.rounds place r.visits] r)
  | .comment text, r => r.visit (.node place (.comment text))
termination_by n => sizeOf n
decreasing_by
  all_goals simp_wf
  all_goals try omega
  · have hi : items = otherwise := Conditional.otherwise_of_arm_block _ha
    rw [hi]
    omega
  · have hs := Conditional.sizeOf_chained _ha
    simp only at hs
    omega

def Tree.runView (place : Place) (index : Nat) : List Item → Run → Run
  | [], r => r
  | .block b :: items, r =>
    Tree.runView place (index + 1) items (r.visit (.block (.item index :: place) b))
  | .node n :: items, r =>
    Tree.runView place (index + 1) items (n.runView (.item index :: place) r)
termination_by items => sizeOf items

def epilogRunView (place : Place) : Option Node → Run → Run
  | none, r => r
  | some n, r => n.runView place r
termination_by epilog => sizeOf epilog

end

end Views

theorem Block.single_start {b : Block} {s : Stream} (hc : b.isLoneCompare s = true) :
    Block.single b.start = b := by
  obtain ⟨hl, -⟩ := of_isLoneCompare hc
  obtain ⟨start, stop⟩ := b
  have hl : stop - start = 1 := hl
  simp only [single, Block.mk.injEq, true_and]
  omega

theorem Conditional.runArm_eq {env : Environment} {s : Stream} {c : Conditional} {place : Place}
    (hn : c.body ≠ []) (ho : ∀ r, Tree.runView env s place 0 c.otherwise r =
      Tree.run env place 0 c.otherwise r) (r : Run) :
    (match _ha : (c.view s).arm with
      | .none => r
      | .block items => Tree.runView env s place 0 items r
      | .elseIf leading nested =>
        Node.runView env s (.item leading.toList.length :: place) nested.toNode
          (r.visitLeading place leading)) = Tree.run env place 0 c.otherwise r := by
  rw [← ho]
  split
  next ha => rw [otherwise_of_arm_none hn ha, Tree.runView]
  next items ha => rw [otherwise_of_arm_block ha]
  next leading nested ha =>
    obtain ⟨rfl, hi⟩ | ⟨b, rfl, hb, hi⟩ := otherwise_of_arm_elseIf ha
    · rw [hi, Tree.runView, Tree.runView]
      rfl
    · rw [hi, Tree.runView, Tree.runView, Tree.runView, Run.visitLeading, Block.single_start hb]
      rfl

mutual

theorem Node.runView_eq (env : Environment) (s : Stream) : ∀ (n : Node) (place : Place) (r : Run),
    n.runView env s place r = n.run env place r
  | .seq items, place, r => by
    rw [Node.runView, Node.run]
    exact Tree.runView_eq env s items place 0 _
  | .ifElse test body otherwise, place, r => by
    have hb := Tree.runView_eq env s body (.body :: place) 0
    have ho := Tree.runView_eq env s otherwise (.otherwise :: place) 0
    rw [Node.runView, Node.run]
    generalize r.visit (.node place (.ifElse test body otherwise)) = q
    by_cases hn : body = []
    · -- The view swaps the branches, and its other arm is as empty as the body.
      have hv := Conditional.view_of_body_nil (c := ⟨test, body, otherwise⟩) hn s
      have hc : (Conditional.view ⟨test, body, otherwise⟩ s).condition = test.condition := by
        rw [hv]
      have hs : (Conditional.view ⟨test, body, otherwise⟩ s).swapped = true := by rw [hv]
      have ha : (Conditional.view ⟨test, body, otherwise⟩ s).arm = .none := by rw [hv]
      rw [hc, hs]
      cases test.condition.holds (env.flags place q.visits) with
      | false =>
        have hq : Tree.run env (.body :: place) 0 body q = q := by rw [hn, Tree.run]
        simp only [Bool.false_eq_true, if_false, hq]
        split
        next => rfl
        next hi => exact absurd (ha.symm.trans hi) (by simp)
        next hi => exact absurd (ha.symm.trans hi) (by simp)
      | true => exact ho q
    · -- The view inverts the condition, and its other arm stands for the alternative.
      have hv := Conditional.view_of_body_ne_nil (c := ⟨test, body, otherwise⟩) hn s
      have hc : (Conditional.view ⟨test, body, otherwise⟩ s).condition =
          test.condition.inverse := by
        rw [hv]
      have hs : (Conditional.view ⟨test, body, otherwise⟩ s).swapped = false := by rw [hv]
      rw [hc, hs, Condition.holds_inverse]
      cases test.condition.holds (env.flags place q.visits) with
      | false => exact hb q
      | true => exact Conditional.runArm_eq (c := ⟨test, body, otherwise⟩) hn ho q
  | .loop body infinite epilog, place, r => by
    have hb := funext (Tree.runView_eq env s body (.body :: place) 0)
    have he := epilogRunView_eq env s epilog (.epilog :: place)
    rw [Node.runView, Node.run, he, hb]
  | .ifGoto .., _, _ | .andIf _, _, _ | .jump _, _, _ | .comment _, _, _ => by
    rw [Node.runView, Node.run]

theorem Tree.runView_eq (env : Environment) (s : Stream) : ∀ (items : List Item) (place : Place)
    (index : Nat) (r : Run),
    Tree.runView env s place index items r = Tree.run env place index items r
  | [], _, _, _ => by rw [Tree.runView, Tree.run]
  | .block b :: items, place, index, r => by
    rw [Tree.runView, Tree.run]
    exact Tree.runView_eq env s items place (index + 1) _
  | .node n :: items, place, index, r => by
    rw [Tree.runView, Tree.run, Node.runView_eq env s n]
    exact Tree.runView_eq env s items place (index + 1) _

theorem epilogRunView_eq (env : Environment) (s : Stream) : ∀ (epilog : Option Node)
    (place : Place) (r : Run), epilogRunView env s place epilog r = epilogRun env place epilog r
  | none, _, _ => by rw [epilogRunView, epilogRun]
  | some n, place, r => by
    rw [epilogRunView, epilogRun]
    exact Node.runView_eq env s n place r

end

/-- An execution by views passes what the direct execution passes, in the same order, and ends in
the same way: for a node as for a tree, at every place and after all earlier visits. -/
theorem runView_eq_run (env : Environment) (s : Stream) :
    (∀ (n : Node) (place : Place) (r : Run), n.runView env s place r = n.run env place r) ∧
    ∀ (items : List Item) (place : Place) (index : Nat) (r : Run),
      Tree.runView env s place index items r = Tree.run env place index items r := by
  refine ⟨?_, ?_⟩
  · intro n place r
    exact Node.runView_eq env s n place r
  · intro items place index r
    exact Tree.runView_eq env s items place index r

end Pseudocode
