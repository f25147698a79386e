import Pseudocode.Text.Hex
import Pseudocode.Machine.Register

namespace Pseudocode

structure Immediate where
  value : BitVec 128
  size : UInt8
  isSigned : Bool
  deriving DecidableEq, Repr

namespace Immediate

def signed (value : BitVec 128) (size : UInt8) : Immediate :=
  ⟨value, size, true⟩

def unsigned (value : UInt64) (size : UInt8) : Immediate :=
  ⟨BitVec.ofNat 128 value.toNat, size, false⟩

def toUInt64 (imm : Immediate) : UInt64 :=
  UInt64.ofNat imm.value.toNat

def toInt64 (imm : Immediate) : Int64 :=
  imm.toUInt64.toInt64

/-- A signed value is written with its sign, an unsigned one as its 128 bits. -/
def text (imm : Immediate) : String :=
  if imm.isSigned then Hex.signed imm.value.toInt else Hex.literal imm.value.toNat

end Immediate

/-- An access at `base + index * scale + displacement`. -/
structure Memory where
  base : Option Register
  index : Option Register
  scale : UInt8
  displacement : Int64
  size : UInt8
  segment : Option Register
  deriving DecidableEq, Repr

namespace Memory

def indexed (base index : Option Register) (scale : UInt8) (displacement : Int64) (size : UInt8) :
    Memory :=
  ⟨base, index, scale, displacement, size, none⟩

def offset (base : Register) (displacement : Int64) (size : UInt8) : Memory :=
  indexed (some base) none 1 displacement size

def direct (base : Register) (size : UInt8) : Memory :=
  offset base 0 size

def absolute (address : Int64) (size : UInt8) : Memory :=
  indexed none none 1 address size

def inSegment (m : Memory) (segment : Register) : Memory :=
  { m with segment := some segment }

/-- A local variable: an offset from the frame pointer and nothing else. Offset zero holds the saved
frame pointer, which is no local. -/
def isLocal (m : Memory) : Bool :=
  m.index.isNone && m.segment.isNone && m.displacement != 0 && m.base.any Register.isFramePointer

def indexText (m : Memory) (index : Register) : String :=
  if 1 < m.scale then index.name ++ "*" ++ toString m.scale.toNat else index.name

def registerTexts (m : Memory) : List String :=
  m.base.toList.map Register.name ++ m.index.toList.map m.indexText

/-- What stands between the brackets: an offset of zero is left out after a register, and one
without any register is written as its 64 bits. -/
def addressText (m : Memory) : String :=
  let d := m.displacement
  match m.registerTexts with
  | [] => Hex.literal d.toUInt64.toNat
  | parts =>
    let sum := " + ".intercalate parts
    if d = 0 then sum
    else sum ++ (if d < 0 then " - " else " + ") ++ Hex.literal d.toInt.natAbs

def text (m : Memory) : String :=
  (m.segment.elim "" (·.name ++ ":")) ++ "[" ++ m.addressText ++ "]"

end Memory

inductive Operand
  | register (r : Register)
  | immediate (imm : Immediate)
  | memory (m : Memory)
  /-- A code address, resolved from its distance to the program counter. -/
  | relative (offset : Int64) (target : UInt64)
  deriving DecidableEq, Repr

namespace Operand

def isRegister : Operand → Bool
  | .register _ => true
  | _ => false

def isImmediate : Operand → Bool
  | .immediate _ => true
  | _ => false

def isMemory : Operand → Bool
  | .memory _ => true
  | _ => false

def register? : Operand → Option Register
  | .register r => some r
  | _ => none

def immediate? : Operand → Option Immediate
  | .immediate imm => some imm
  | _ => none

def memory? : Operand → Option Memory
  | .memory m => some m
  | _ => none

/-- The address that a jump or a call with this operand goes to, if the operand says so. -/
def directTarget? : Operand → Option UInt64
  | .immediate imm => some imm.toUInt64
  | .relative _ target => some target
  | _ => none

def asLocal? (op : Operand) : Option Memory :=
  op.memory?.filter Memory.isLocal

def text : Operand → String
  | .register r => r.name
  | .immediate imm => imm.text
  | .memory m => m.text
  | .relative _ target => Hex.literal target.toNat

end Operand

end Pseudocode
