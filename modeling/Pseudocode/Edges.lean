import Pseudocode.Table

namespace Pseudocode

structure Edges where
  successorLists : Table UInt64 (List UInt64)
  deriving Repr

namespace Edges

def empty : Edges := ⟨.empty⟩

def ofList (entries : List (UInt64 × List UInt64)) : Edges :=
  ⟨entries.foldl (fun t e => t.insert e.1 e.2) .empty⟩

def successors (e : Edges) (source : UInt64) : List UInt64 :=
  (e.successorLists.get? source).getD []

def add (e : Edges) (source target : UInt64) : Edges :=
  ⟨e.successorLists.insert source (e.successors source ++ [target])⟩

/-- The first successor: where a jump goes when it is taken. -/
def next? (e : Edges) (source : UInt64) : Option UInt64 :=
  (e.successors source).head?

def size (e : Edges) : Nat :=
  e.successorLists.size

def isEmpty (e : Edges) : Bool :=
  e.successorLists.isEmpty

end Edges

end Pseudocode
