import Pseudocode.Machine.Arch

namespace Pseudocode

inductive RegisterKind
  | general
  | segment
  | programCounter
  | flags
  | other
  deriving DecidableEq, Repr

structure Register where
  arch : Arch
  kind : RegisterKind
  id : UInt16
  size : UInt16
  deriving DecidableEq, Repr

namespace Register

def general (arch : Arch) (id size : UInt16) : Register :=
  ⟨arch, .general, id, size⟩

def segment (arch : Arch) (id : UInt16) : Register :=
  ⟨arch, .segment, id, 16⟩

def names : Nat → List String
  | 64 => ["rax", "rcx", "rdx", "rbx", "rsp", "rbp", "rsi", "rdi", "r8", "r9", "r10", "r11",
      "r12", "r13", "r14", "r15", "rip", "rflags"]
  | 32 => ["eax", "ecx", "edx", "ebx", "esp", "ebp", "esi", "edi", "r8d", "r9d", "r10d", "r11d",
      "r12d", "r13d", "r14d", "r15d", "eip"]
  | 16 => ["ax", "cx", "dx", "bx", "sp", "bp", "si", "di"]
  | 8 => ["al", "cl", "dl", "bl", "spl", "bpl", "sil", "dil"]
  | _ => []

/-- Segment registers are numbered from 32 on. -/
def segmentNames : List String :=
  ["cs", "ds", "es", "fs", "gs", "ss"]

/-- A segment register has its name in every width. -/
def name (r : Register) : String :=
  let id := r.id.toNat
  let name? := if id < 32 then (names r.size.toNat)[id]? else segmentNames[id - 32]?
  name?.getD "unknown"

/-- The 64-bit and the 32-bit form both address the frame. -/
def isFramePointer (r : Register) : Bool :=
  r.kind == .general && r.id == 5 && (r.size == 32 || r.size == 64)

end Register

end Pseudocode
