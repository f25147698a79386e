namespace Pseudocode.Surrogate

def isHigh (u : Nat) : Bool :=
  0xd800 ≤ u && u < 0xdc00

def isLow (u : Nat) : Bool :=
  0xdc00 ≤ u && u < 0xe000

def pair (high low : Nat) : Char :=
  Char.ofNat (0x10000 + (high - 0xd800) * 0x400 + (low - 0xdc00))

/-- Puts the characters of some units in front of `chars`. The units come last first, and a
surrogate may only stand in a pair. -/
def join? (chars : List Char) : List Nat → Option (List Char)
  | [] => some chars
  | [u] => if isLow u || isHigh u then none else some (Char.ofNat u :: chars)
  | u :: v :: units =>
    if isLow u && isHigh v then join? (pair v u :: chars) units
    else if isLow u || isHigh u then none
    else join? (Char.ofNat u :: chars) (v :: units)

end Pseudocode.Surrogate
