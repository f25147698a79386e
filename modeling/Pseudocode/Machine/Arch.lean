import Pseudocode.Text.Case

namespace Pseudocode

inductive Arch
  | x86_64
  | x86
  deriving DecidableEq, Repr

instance : Inhabited Arch := ⟨.x86_64⟩

namespace Arch

def pointerSize : Arch → Nat
  | .x86_64 => 8
  | .x86 => 4

def is64Bit : Arch → Bool
  | .x86_64 => true
  | .x86 => false

def name : Arch → String
  | .x86_64 => "x86_64"
  | .x86 => "x86"

def ofName? (s : String) : Option Arch :=
  let n := Case.lower s
  if n ∈ ["x86_64", "x86-64", "amd64", "x64"] then some .x86_64
  else if n ∈ ["x86", "i386", "i686"] then some .x86
  else none

/-- The register that frame offsets are written against. -/
def framePointer : Arch → String
  | .x86_64 => "rbp"
  | .x86 => "ebp"

end Arch

end Pseudocode
