import Pseudocode.Error
import Pseudocode.Machine.Instruction

namespace Pseudocode

def orderFault? : List Instruction → Option Error
  | a :: b :: rest =>
    if b.address = a.address then some (.duplicateAddress b.address)
    else if b.address < a.address then some (.unorderedAddress a.address b.address)
    else orderFault? (b :: rest)
  | _ => none

structure Stream where
  instructions : List Instruction
  ordered : orderFault? instructions = none

namespace Stream

/-- Refuses instructions whose addresses do not increase, and never reorders them. -/
def ofList (is : List Instruction) : Except Error Stream :=
  match h : orderFault? is with
  | none => .ok ⟨is, h⟩
  | some e => .error e

def length (s : Stream) : Nat :=
  s.instructions.length

def isEmpty (s : Stream) : Bool :=
  s.instructions.isEmpty

def get? (s : Stream) (handle : Nat) : Option Instruction :=
  s.instructions[handle]?

def positionOf? (s : Stream) (address : UInt64) : Option Nat :=
  s.instructions.findIdx? (·.address = address)

def atAddress? (s : Stream) (address : UInt64) : Option Instruction :=
  s.instructions.find? (·.address = address)

/-- The instructions from `start` up to but not including `stop`, if there are as many. -/
def slice? (s : Stream) (start stop : Nat) : Option (List Instruction) :=
  if start ≤ stop ∧ stop ≤ s.length then some ((s.instructions.drop start).take (stop - start))
  else none

def run (s : Stream) (start stop : Nat) : List (Instruction × Nat) :=
  (s.instructions.zipIdx.drop start).take (stop - start)

end Stream

end Pseudocode
