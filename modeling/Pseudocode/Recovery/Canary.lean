import Pseudocode.Recovery.Slots
import Pseudocode.Symbols

namespace Pseudocode

namespace Canary

structure Settings where
  guard : String
  window : Nat
  suffix : String
  /-- Moves out of a slot count as well as moves into it. -/
  loads : Bool
  deriving DecidableEq, Repr

namespace Settings

def standard : Settings := ⟨"__stack_chk_fail@plt", 3, "_canary", false⟩

def operandPositions (settings : Settings) : List Nat :=
  if settings.loads then [0, 1] else [0]

end Settings

/-- The call of the guard routine, and the move before it that touches the canary. -/
structure Site where
  call : UInt64
  store : UInt64
  displacement : Int64
  deriving DecidableEq, Repr

structure Match where
  site : Site
  slot : String
  deriving DecidableEq, Repr

def slotMoved? (settings : Settings) (slots : SlotTable) (i : Instruction) : Option Int64 :=
  if i.operation = .move then
    settings.operandPositions.findSome? fun position =>
      ((i.operands[position]?.bind Operand.asLocal?).map Memory.displacement).filter slots.contains
  else none

def callPosition? (s : Stream) (target : UInt64) : Option Nat :=
  s.instructions.findIdx? fun i => i.isCall && i.callTarget? == some target

/-- Searches backwards from the first call of the guard routine. -/
def site? (settings : Settings) (guard : UInt64) (s : Stream) (slots : SlotTable) : Option Site := do
  let position ← callPosition? s guard
  let call ← s.get? position
  let window := (s.instructions.take position).drop (position - settings.window)
  window.reverse.findSome? fun i =>
    (slotMoved? settings slots i).map fun displacement => ⟨call.address, i.address, displacement⟩

def guardAddress? (settings : Settings) (symbols : Symbols) : Option UInt64 :=
  symbols.get? settings.guard

def recover (settings : Settings) (symbols : Symbols) (s : Stream) (slots : SlotTable) :
    SlotTable × Option Match :=
  match (guardAddress? settings symbols).bind fun guard => site? settings guard s slots with
  | none => (slots, none)
  | some site =>
    let marked := slots.appendSuffix site.displacement settings.suffix
    (marked, (marked.nameOf? site.displacement).map fun name => ⟨site, name⟩)

end Canary

end Pseudocode
