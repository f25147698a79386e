import Pseudocode.Stream
import Pseudocode.Tree.Basic

namespace Pseudocode

/-- The instruction that a block offers to a conditional behind it. -/
def Block.comparison? (b : Block) (s : Stream) : Option Nat :=
  b.last?.filter fun handle => (s.get? handle).any Instruction.isFusable

def Node.attach (n : Node) : Option Nat → Node
  | none => n
  | some handle => n.setComparison (some handle)

mutual

def Node.fuse (s : Stream) : Node → Node
  | .seq items => .seq (Tree.fuseAfter s none items)
  | .ifElse test body otherwise =>
    .ifElse test (Tree.fuseAfter s none body) (Tree.fuseAfter s none otherwise)
  | .loop body infinite epilog =>
    .loop (Tree.fuseAfter s none body) infinite (fuseEpilog s epilog)
  | .ifGoto test target => .ifGoto test target
  | .andIf test => .andIf test
  | .jump target => .jump target
  | .comment text => .comment text

/-- Fuses the items behind one that offers `offer`. -/
def Tree.fuseAfter (s : Stream) (offer : Option Nat) : List Item → List Item
  | [] => []
  | .block b :: items => .block b :: Tree.fuseAfter s (b.comparison? s) items
  | .node n :: items => .node ((n.fuse s).attach offer) :: Tree.fuseAfter s none items

def fuseEpilog (s : Stream) : Option Node → Option Node
  | none => none
  | some n => some (n.fuse s)

end

/-- The first item has nothing before it. -/
def Tree.fuse (t : Tree) (s : Stream) : Tree :=
  Tree.fuseAfter s none t

def Node.taken (n : Node) (offer : Option Nat) : List Nat :=
  if n.isConditional then offer.toList else []

mutual

def Node.fused (s : Stream) : Node → List Nat
  | .seq items => Tree.fusedAfter s none items
  | .ifElse _ body otherwise => Tree.fusedAfter s none body ++ Tree.fusedAfter s none otherwise
  | .loop body _ epilog => Tree.fusedAfter s none body ++ fusedEpilog s epilog
  | .ifGoto .. | .andIf _ | .jump _ | .comment _ => []

/-- The handles that fusion attaches to the items behind one that offers `offer`. -/
def Tree.fusedAfter (s : Stream) (offer : Option Nat) : List Item → List Nat
  | [] => []
  | .block b :: items => Tree.fusedAfter s (b.comparison? s) items
  | .node n :: items => n.taken offer ++ n.fused s ++ Tree.fusedAfter s none items

def fusedEpilog (s : Stream) : Option Node → List Nat
  | none => []
  | some n => n.fused s

end

def Tree.fusedAddresses (t : Tree) (s : Stream) : List UInt64 :=
  (Tree.fusedAfter s none t).filterMap fun handle => (s.get? handle).map Instruction.address

end Pseudocode
