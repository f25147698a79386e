namespace Pseudocode

inductive Operation
  | move
  | load
  | store
  | push
  | pop
  | exchange
  | loadEffectiveAddress
  | add
  | sub
  | mul
  | div
  | neg
  | inc
  | dec
  | and
  | or
  | xor
  | not
  | shl
  | shr
  | sar
  | rol
  | ror
  | compare
  | test
  | jump
  | conditionalJump
  | call
  | ret
  | nop
  | halt
  | other (code : UInt16)
  deriving DecidableEq, Repr

namespace Operation

def name : Operation → String
  | .move => "move"
  | .load => "load"
  | .store => "store"
  | .push => "push"
  | .pop => "pop"
  | .exchange => "exchange"
  | .loadEffectiveAddress => "lea"
  | .add => "add"
  | .sub => "sub"
  | .mul => "mul"
  | .div => "div"
  | .neg => "neg"
  | .inc => "inc"
  | .dec => "dec"
  | .and => "and"
  | .or => "or"
  | .xor => "xor"
  | .not => "not"
  | .shl => "shl"
  | .shr => "shr"
  | .sar => "sar"
  | .rol => "rol"
  | .ror => "ror"
  | .compare => "compare"
  | .test => "test"
  | .jump => "jump"
  | .conditionalJump => "cond_jump"
  | .call => "call"
  | .ret => "return"
  | .nop => "nop"
  | .halt => "halt"
  | .other _ => "other"

/-- The operator between destination and source of a two-operand assignment. -/
def assignOperator? : Operation → Option String
  | .move | .load | .store | .loadEffectiveAddress => some "="
  | .add => some "+="
  | .sub => some "-="
  | .mul => some "*="
  | .div => some "/="
  | .and => some "&="
  | .or => some "|="
  | .xor => some "^="
  | .shl => some "<<="
  | .shr | .sar => some ">>="
  | .rol => some "rol="
  | .ror => some "ror="
  | _ => none

/-- The operation leaves a value in its first operand. -/
def isAssignment : Operation → Bool
  | .neg | .inc | .dec | .not => true
  | op => op.assignOperator?.isSome

end Operation

end Pseudocode
