import Pseudocode.Machine.Condition
import Pseudocode.Machine.Operand
import Pseudocode.Machine.Operation

namespace Pseudocode

inductive Flow
  | sequential
  | unconditionalBranch (target : UInt64)
  | conditionalBranch (target : UInt64) (condition : Condition) (fallthrough : UInt64)
  | indirectBranch
  | call (target returnAddress : UInt64)
  | indirectCall (returnAddress : UInt64)
  | ret
  | halt
  deriving DecidableEq, Repr

namespace Flow

def isSequential : Flow → Bool
  | .sequential => true
  | _ => false

def isCall : Flow → Bool
  | .call .. | .indirectCall _ => true
  | _ => false

def isUnconditional : Flow → Bool
  | .unconditionalBranch _ | .indirectBranch => true
  | _ => false

def condition? : Flow → Option Condition
  | .conditionalBranch _ c _ => some c
  | _ => none

def callTarget? : Flow → Option UInt64
  | .call target _ => some target
  | _ => none

end Flow

structure Instruction where
  address : UInt64
  size : Nat
  bytes : List UInt8
  operation : Operation
  mnemonic : String
  /-- The destination stands first. -/
  operands : List Operand
  flow : Flow
  deriving DecidableEq, Repr

namespace Instruction

def bare (address : UInt64) (size : Nat) (bytes : List UInt8) (mnemonic : String) : Instruction :=
  ⟨address, size, bytes, .other 0, mnemonic, [], .sequential⟩

def endAddress (i : Instruction) : UInt64 :=
  i.address + UInt64.ofNat i.size

def isJump (i : Instruction) : Bool :=
  i.operation == .jump || i.flow.isUnconditional

def isCall (i : Instruction) : Bool :=
  i.operation == .call || i.flow.isCall

/-- The called address: the first operand's, or else that of the control flow. -/
def callTarget? (i : Instruction) : Option UInt64 :=
  (i.operands.head?.bind Operand.directTarget?).or i.flow.callTarget?

/-- A `test` of a register against the very same register: a check for zero. -/
def isSelfTest (i : Instruction) : Bool :=
  i.operation == .test &&
    match i.operands with
    | [.register a, .register b] => a == b
    | _ => false

/-- The instruction can serve as the test of a conditional behind it. -/
def isFusable (i : Instruction) : Bool :=
  i.operation == .compare || i.operation.isAssignment || i.isSelfTest

def withOperands (mnemonic : String) (operands : List String) : String :=
  match operands with
  | [] => mnemonic
  | _ => mnemonic ++ " " ++ ", ".intercalate operands

def asm (i : Instruction) : String :=
  withOperands i.mnemonic (i.operands.map Operand.text)

def text (i : Instruction) : String :=
  "0x" ++ Hex.padded 8 i.address.toNat ++ ":  " ++
    String.join (i.bytes.map fun b => Hex.padded 2 b.toNat ++ " ") ++
    String.join (List.replicate (8 - i.bytes.length) "   ") ++ " " ++ i.asm

end Instruction

end Pseudocode
