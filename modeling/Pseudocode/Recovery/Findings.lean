import Pseudocode.Recovery.Canary
import Pseudocode.Recovery.Fusion
import Pseudocode.Recovery.Marks

namespace Pseudocode

structure Findings where
  /-- The addresses of instructions that serve as tests. -/
  fused : Marks
  slots : SlotTable

namespace Findings

def start (stem : String) : Findings := ⟨.empty, .empty stem⟩

/-- Marks the instructions that fusion attaches to conditionals of the tree. -/
def fuse (f : Findings) (s : Stream) (t : Tree) : Findings :=
  { f with fused := (t.fusedAddresses s).foldl Marks.insert f.fused }

def fuseCount (f : Findings) (s : Stream) (t : Tree) : Nat :=
  (f.fuse s t).fused.size - f.fused.size

def recoverSlots (f : Findings) (s : Stream) (t : Tree) : Findings :=
  { f with slots := f.slots.discoverAll (t.localAccesses s) }

def slotCount (f : Findings) (s : Stream) (t : Tree) : Nat :=
  (f.recoverSlots s t).slots.size - f.slots.size

def recoverCanary (f : Findings) (settings : Canary.Settings) (symbols : Symbols) (s : Stream) :
    Findings × Option Canary.Match :=
  let recovered := Canary.recover settings symbols s f.slots
  ({ f with slots := recovered.1 }, recovered.2)

end Findings

end Pseudocode
