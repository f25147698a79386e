namespace Pseudocode

/-- `above` and `below` compare without sign, `greater` and `less` with it. -/
inductive Condition
  | equal
  | notEqual
  | above
  | aboveOrEqual
  | below
  | belowOrEqual
  | greater
  | greaterOrEqual
  | less
  | lessOrEqual
  | sign
  | notSign
  | overflow
  | notOverflow
  | parity
  | notParity
  deriving DecidableEq, Repr

namespace Condition

def inverse : Condition → Condition
  | .equal => .notEqual
  | .notEqual => .equal
  | .above => .belowOrEqual
  | .aboveOrEqual => .below
  | .below => .aboveOrEqual
  | .belowOrEqual => .above
  | .greater => .lessOrEqual
  | .greaterOrEqual => .less
  | .less => .greaterOrEqual
  | .lessOrEqual => .greater
  | .sign => .notSign
  | .notSign => .sign
  | .overflow => .notOverflow
  | .notOverflow => .overflow
  | .parity => .notParity
  | .notParity => .parity

def symbol : Condition → String
  | .equal => "=="
  | .notEqual => "!="
  | .above | .greater => ">"
  | .aboveOrEqual | .greaterOrEqual => ">="
  | .below | .less => "<"
  | .belowOrEqual | .lessOrEqual => "<="
  | .sign => "sign"
  | .notSign => "!sign"
  | .overflow => "overflow"
  | .notOverflow => "!overflow"
  | .parity => "parity"
  | .notParity => "!parity"

/-- A relational condition compares two values; the others read one flag. -/
def isRelational : Condition → Bool
  | .sign | .notSign | .overflow | .notOverflow | .parity | .notParity => false
  | _ => true

def mnemonicSuffix : Condition → String
  | .equal => "e"
  | .notEqual => "ne"
  | .above => "a"
  | .aboveOrEqual => "ae"
  | .below => "b"
  | .belowOrEqual => "be"
  | .greater => "g"
  | .greaterOrEqual => "ge"
  | .less => "l"
  | .lessOrEqual => "le"
  | .sign => "s"
  | .notSign => "ns"
  | .overflow => "o"
  | .notOverflow => "no"
  | .parity => "p"
  | .notParity => "np"

end Condition

end Pseudocode
