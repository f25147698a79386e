import Pseudocode.Edges
import Pseudocode.Stream
import Pseudocode.Text.Terminal
import Pseudocode.Tree.Basic

namespace Pseudocode

/-- The addresses that have a colour, in the order in which they got it. -/
structure Colors where
  targets : List UInt64
  deriving DecidableEq, Repr

namespace Colors

def empty : Colors := ⟨[]⟩

def palette : List Nat :=
  [31, 32, 33, 34, 35, 36, 91, 92, 93, 94, 95, 96]

def code (k : Nat) : Nat :=
  palette.get ⟨k % palette.length, Nat.mod_lt k (by decide)⟩

def pick (c : Colors) (a : UInt64) : Colors :=
  if a ∈ c.targets then c else ⟨c.targets ++ [a]⟩

def get? (c : Colors) (a : UInt64) : Option Nat :=
  (c.targets.idxOf? a).map code

def paint (c : Colors) (a : UInt64) (text : String) : String :=
  match c.get? a with
  | some code => Terminal.styled code text
  | none => text

def size (c : Colors) : Nat :=
  c.targets.length

def isEmpty (c : Colors) : Bool :=
  c.targets.isEmpty

def ofTargets (as : List UInt64) : Colors :=
  as.foldl pick empty

end Colors

/-- Where a block that starts with a jump to a known address goes. -/
def Block.landing? (b : Block) (s : Stream) (edges : Edges) : Option UInt64 := do
  let handle ← b.first?
  let i ← s.get? handle
  if i.isJump && (i.operands.head?.bind Operand.directTarget?).isSome then edges.next? i.address
  else none

mutual

def Item.targets (s : Stream) (edges : Edges) : Item → List UInt64
  | .block b => (b.landing? s edges).toList
  | .node n => n.targets s edges

/-- The addresses that jumps of a node land on. An alternative comes before the body. -/
def Node.targets (s : Stream) (edges : Edges) : Node → List UInt64
  | .seq items => Tree.targets s edges items
  | .ifGoto _ target => [target]
  | .andIf _ => []
  | .ifElse _ body otherwise => Tree.targets s edges otherwise ++ Tree.targets s edges body
  | .jump target => [target]
  | .loop body _ epilog => Tree.targets s edges body ++ epilogTargets s edges epilog
  | .comment _ => []

def Tree.targets (s : Stream) (edges : Edges) : List Item → List UInt64
  | [] => []
  | item :: items => item.targets s edges ++ Tree.targets s edges items

def epilogTargets (s : Stream) (edges : Edges) : Option Node → List UInt64
  | none => []
  | some n => n.targets s edges

end

def Tree.colors (t : Tree) (s : Stream) (edges : Edges) : Colors :=
  .ofTargets (Tree.targets s edges t)

end Pseudocode
