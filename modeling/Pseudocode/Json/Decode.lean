import Pseudocode.Json.Basic

namespace Pseudocode.Json

abbrev Fields := List (String × Json)

def fields? : Json → Option Fields
  | .object members => some members
  | _ => none

def items? : Json → Option (List Json)
  | .array items => some items
  | _ => none

def string? : Json → Option String
  | .string s => some s
  | _ => none

def bool? : Json → Option Bool
  | .bool b => some b
  | _ => none

def int? : Json → Option Int
  | .number (.integer negative n) => some (if negative then -n else n)
  | _ => none

/-- A whole number below `bound` and not below zero. -/
def natBelow? (bound : Nat) : Json → Option Nat
  | .number (.integer false n) => if n < bound then some n else none
  | _ => none

def intWithin? (half : Nat) (j : Json) : Option Int :=
  j.int?.filter fun n => -(half : Int) ≤ n && n < (half : Int)

/-- A position or a count: it has to fit in 64 bits. -/
def nat? (j : Json) : Option Nat :=
  j.natBelow? UInt64.size

def uint8? (j : Json) : Option UInt8 :=
  (j.natBelow? UInt8.size).map UInt8.ofNat

def uint16? (j : Json) : Option UInt16 :=
  (j.natBelow? UInt16.size).map UInt16.ofNat

def uint64? (j : Json) : Option UInt64 :=
  (j.natBelow? UInt64.size).map UInt64.ofNat

def int64? : Json → Option Int64
  -- a zero with a sign counts as a fraction
  | .number (.integer true 0) => none
  | j => (j.intWithin? 0x8000000000000000).map Int64.ofInt

def int128? (j : Json) : Option (BitVec 128) :=
  (j.intWithin? 0x80000000000000000000000000000000).map (BitVec.ofInt 128)

def list? {α : Type} (decode : Json → Option α) (j : Json) : Option (List α) :=
  j.items?.bind fun items => items.mapM decode

def nullable? {α : Type} (decode : Json → Option α) : Json → Option (Option α)
  | .null => some none
  | j => (decode j).map some

namespace Fields

def required? {α : Type} (fields : Fields) (key : String) (decode : Json → Option α) : Option α :=
  (fields.lookup key).bind decode

/-- A missing member counts as `default`, a member that cannot be read is an error. -/
def optional? {α : Type} (fields : Fields) (key : String) (decode : Json → Option α)
    (default : α) : Option α :=
  match fields.lookup key with
  | none => some default
  | some j => decode j

def maybe? {α : Type} (fields : Fields) (key : String) (decode : Json → Option α) :
    Option (Option α) :=
  optional? fields key (nullable? decode) none

end Fields

def tag? : Json → Option String
  | .string s => some s
  | .object [(s, .null)] => some s
  | _ => none

def variant? : Json → Option (String × Json)
  | .object [(tag, j)] => some (tag, j)
  | _ => none

def ofNames? {α : Type} (all : List α) (name : α → String) (j : Json) : Option α :=
  j.tag?.bind fun s => all.find? fun a => name a == s

end Pseudocode.Json
