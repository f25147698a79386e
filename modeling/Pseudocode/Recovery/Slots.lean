import Pseudocode.Tree.Reference

namespace Pseudocode

structure Slot where
  id : Nat
  displacement : Int64
  name : String
  size : UInt8
  deriving DecidableEq, Repr

/-- Slots in the order of their discovery. A slot is kept under its own displacement: what is found
at a displacement is the slot that has it. -/
structure SlotTable where
  stem : String
  slots : List Slot
  deriving Repr

namespace SlotTable

def defaultStem : String := "var"

def empty (stem : String) : SlotTable := ⟨stem, []⟩

def size (t : SlotTable) : Nat :=
  t.slots.length

def isEmpty (t : SlotTable) : Bool :=
  t.slots.isEmpty

def get? (t : SlotTable) (displacement : Int64) : Option Slot :=
  t.slots.find? (·.displacement = displacement)

def contains (t : SlotTable) (displacement : Int64) : Bool :=
  (t.get? displacement).isSome

def nameOf? (t : SlotTable) (displacement : Int64) : Option String :=
  (t.get? displacement).map Slot.name

def newId? (t : SlotTable) (displacement : Int64) : Option Nat :=
  if t.contains displacement then none else some (t.size + 1)

/-- Records an access. Only the first one at a displacement counts. -/
def discover (t : SlotTable) (displacement : Int64) (size : UInt8) : SlotTable :=
  match t.newId? displacement with
  | none => t
  | some id => { t with slots := t.slots ++ [⟨id, displacement, t.stem ++ Nat.repr id, size⟩] }

def takesSuffix (t : SlotTable) (displacement : Int64) (suffix : String) : Bool :=
  (t.nameOf? displacement).any fun name => !suffix.toList.isSuffixOf name.toList

def appendSuffix (t : SlotTable) (displacement : Int64) (suffix : String) : SlotTable :=
  if t.takesSuffix displacement suffix then
    { t with
      slots := t.slots.map fun slot =>
        if slot.displacement = displacement then { slot with name := slot.name ++ suffix }
        else slot }
  else t

/-- The two tables have the same stem and hold the same slots, in any order. -/
def agrees (t u : SlotTable) : Bool :=
  t.stem == u.stem && t.size == u.size &&
    t.slots.all fun slot => u.get? slot.displacement == some slot

end SlotTable

def Instruction.localAccesses (i : Instruction) : List (Int64 × UInt8) :=
  (i.operands.filterMap Operand.asLocal?).map fun m => (m.displacement, m.size)

def Tree.localAccesses (t : Tree) (s : Stream) : List (Int64 × UInt8) :=
  ((Tree.references t).flatMap (Reference.instructions s)).flatMap Instruction.localAccesses

def SlotTable.discoverAll (t : SlotTable) (accesses : List (Int64 × UInt8)) : SlotTable :=
  accesses.foldl (fun t a => t.discover a.1 a.2) t

end Pseudocode
