import Pseudocode.Stream
import Pseudocode.Tree.Basic

namespace Pseudocode

structure Conditional where
  test : Test
  body : List Item
  otherwise : List Item

inductive ElseArm
  | none
  | block (items : List Item)
  /-- A conditional, with the comparison in front of it if that is all that stands there. -/
  | elseIf (leading : Option Nat) (nested : Conditional)

structure View where
  condition : Condition
  swapped : Bool
  arm : ElseArm

/-- The block holds one instruction, which compares. -/
def Block.isLoneCompare (b : Block) (s : Stream) : Bool :=
  b.length == 1 && (s.get? b.start).any (·.operation == .compare)

def ElseArm.ofItems (s : Stream) : List Item → ElseArm
  | [] => .none
  | [.node (.ifElse test body otherwise)] => .elseIf .none ⟨test, body, otherwise⟩
  | [.block b, .node (.ifElse test body otherwise)] =>
    if b.isLoneCompare s then .elseIf (some b.start) ⟨test, body, otherwise⟩
    else .block [.block b, .node (.ifElse test body otherwise)]
  | items => .block items

namespace Conditional

/-- The condition of the test leads to the alternative, so the body runs on its inverse. -/
def view (c : Conditional) (s : Stream) : View :=
  if c.body.isEmpty then ⟨c.test.condition, true, .none⟩
  else ⟨c.test.condition.inverse, false, .ofItems s c.otherwise⟩

end Conditional

mutual

def Item.conditionals : Item → List Conditional
  | .block _ => []
  | .node n => n.conditionals

/-- All two-way conditionals, each before those inside it. -/
def Node.conditionals : Node → List Conditional
  | .seq items => Tree.conditionals items
  | .ifElse test body otherwise =>
    ⟨test, body, otherwise⟩ :: (Tree.conditionals body ++ Tree.conditionals otherwise)
  | .loop body _ epilog => Tree.conditionals body ++ epilogConditionals epilog
  | .ifGoto .. | .andIf _ | .jump _ | .comment _ => []

def Tree.conditionals : List Item → List Conditional
  | [] => []
  | item :: items => item.conditionals ++ Tree.conditionals items

def epilogConditionals : Option Node → List Conditional
  | none => []
  | some n => n.conditionals

end

end Pseudocode
