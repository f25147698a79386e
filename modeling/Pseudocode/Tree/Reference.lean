import Pseudocode.Stream
import Pseudocode.Tree.Basic

namespace Pseudocode

inductive Reference
  | block (b : Block)
  | jump (handle : Nat)
  | comparison (handle : Nat)
  deriving DecidableEq, Repr

def Test.references (t : Test) : List Reference :=
  .jump t.jump :: t.comparison.toList.map .comparison

mutual

def Item.references : Item → List Reference
  | .block b => [.block b]
  | .node n => n.references

/-- A test comes before the branches, the body before its alternative, a loop before its epilog. -/
def Node.references : Node → List Reference
  | .seq items => Tree.references items
  | .ifGoto test _ => test.references
  | .andIf test => test.references
  | .ifElse test body otherwise =>
    test.references ++ Tree.references body ++ Tree.references otherwise
  | .jump _ => []
  | .loop body _ epilog => Tree.references body ++ epilogReferences epilog
  | .comment _ => []

def Tree.references : List Item → List Reference
  | [] => []
  | item :: items => item.references ++ Tree.references items

def epilogReferences : Option Node → List Reference
  | none => []
  | some n => n.references

end

namespace Reference

def rangeFault? (length start stop : Nat) : Option Error :=
  if length < stop then some (.outOfRange start stop length) else none

def fault? (length : Nat) : Reference → Option Error
  | .block b =>
    if b.isEmpty then some (.emptyBlock b.start) else rangeFault? length b.start b.stop
  | .jump handle => rangeFault? length handle (handle + 1)
  | .comparison handle => rangeFault? length handle (handle + 1)

/-- The instructions that are shown or tested at a reference. -/
def instructions (s : Stream) : Reference → List Instruction
  | .block b => (s.run b.start b.stop).map Prod.fst
  | .jump _ => []
  | .comparison handle => (s.get? handle).toList

end Reference

namespace Tree

def fault? (t : Tree) (length : Nat) : Option Error :=
  (Tree.references t).findSome? (Reference.fault? length)

def check (t : Tree) (length : Nat) : Except Error Unit :=
  match fault? t length with
  | none => .ok ()
  | some e => .error e

def validate (t : Tree) (s : Stream) : Except Error Unit :=
  check t s.length

end Tree

end Pseudocode
