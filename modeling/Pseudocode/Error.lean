import Pseudocode.Text.Hex

namespace Pseudocode

inductive Error
  | duplicateAddress (address : UInt64)
  | unorderedAddress (previous address : UInt64)
  | outOfRange (start stop length : Nat)
  | emptyBlock (start : Nat)
  deriving DecidableEq, Repr

namespace Error

def message : Error → String
  | .duplicateAddress a => "duplicate instruction address " ++ Hex.literal a.toNat
  | .unorderedAddress previous a =>
    "instruction at " ++ Hex.literal a.toNat ++ " listed after " ++ Hex.literal previous.toNat
  | .outOfRange start stop length =>
    "instruction range " ++ Nat.repr start ++ ".." ++ Nat.repr stop ++
      " out of bounds for stream of " ++ Nat.repr length
  | .emptyBlock start => "empty instruction block at position " ++ Nat.repr start

end Error

end Pseudocode
