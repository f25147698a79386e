import Pseudocode.Machine.Condition

namespace Pseudocode

/-- The instructions from `start` up to but not including `stop`. -/
structure Block where
  start : Nat
  stop : Nat
  deriving DecidableEq, Repr

namespace Block

def single (handle : Nat) : Block :=
  ⟨handle, handle + 1⟩

def length (b : Block) : Nat :=
  b.stop - b.start

def isEmpty (b : Block) : Bool :=
  b.length == 0

def first? (b : Block) : Option Nat :=
  if b.isEmpty then none else some b.start

def last? (b : Block) : Option Nat :=
  if b.isEmpty then none else some (b.stop - 1)

def handles (b : Block) : List Nat :=
  List.range' b.start b.length

end Block

/-- What a conditional branches on: its jump, the condition under which the jump is taken and, once
it is known, the instruction that computes the condition. -/
structure Test where
  jump : Nat
  condition : Condition
  comparison : Option Nat
  deriving DecidableEq, Repr

mutual

inductive Item
  | block (b : Block)
  | node (n : Node)

inductive Node
  | seq (items : List Item)
  | ifGoto (test : Test) (target : UInt64)
  /-- One more condition for what the conditional before it guards. -/
  | andIf (test : Test)
  /-- The jump leads to `otherwise`; when it is not taken, `body` runs. -/
  | ifElse (test : Test) (body otherwise : List Item)
  | jump (target : UInt64)
  | loop (body : List Item) (infinite : Bool) (epilog : Option Node)
  | comment (text : String)

end

abbrev Tree := List Item

namespace Node

def test? : Node → Option Test
  | .ifGoto test _ => some test
  | .andIf test => some test
  | .ifElse test _ _ => some test
  | .seq _ | .jump _ | .loop .. | .comment _ => none

def isConditional (n : Node) : Bool :=
  n.test?.isSome

def comparison? (n : Node) : Option Nat :=
  n.test?.bind Test.comparison

def setComparison (n : Node) (comparison : Option Nat) : Node :=
  match n with
  | .ifGoto test target => .ifGoto { test with comparison } target
  | .andIf test => .andIf { test with comparison }
  | .ifElse test body otherwise => .ifElse { test with comparison } body otherwise
  | .seq _ | .jump _ | .loop .. | .comment _ => n

end Node

namespace Item

def block? : Item → Option Block
  | .block b => some b
  | .node _ => none

def node? : Item → Option Node
  | .block _ => none
  | .node n => some n

end Item

namespace Tree

def addBlock (t : Tree) (b : Block) : Tree :=
  t ++ [.block b]

def addNode (t : Tree) : Node → Tree
  | .seq items => t ++ items
  | n => t ++ [.node n]

end Tree

end Pseudocode
