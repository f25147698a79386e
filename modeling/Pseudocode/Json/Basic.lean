namespace Pseudocode

namespace Json

inductive Number
  | integer (negative : Bool) (magnitude : Nat)
  | decimal (text : String)
  deriving DecidableEq, Repr

namespace Number

def ofInt (n : Int) : Number :=
  .integer (decide (n < 0)) n.natAbs

def text : Number → String
  | .integer negative magnitude => (if negative then "-" else "") ++ Nat.repr magnitude
  | .decimal text => text

end Number

end Json

inductive Json
  | null
  | bool (b : Bool)
  | number (n : Json.Number)
  | string (s : String)
  | array (items : List Json)
  | object (members : List (String × Json))
  /-- What is well formed but not held: a string or a key with half of a surrogate pair, or a
  container that lies too deep. It has no shape that can be read. -/
  | unreadable
  deriving Repr

namespace Json

instance : Inhabited Json := ⟨.null⟩

def ofInt (n : Int) : Json :=
  .number (.ofInt n)

def ofNat (n : Nat) : Json :=
  .number (.integer false n)

def ofOption {α : Type} (f : α → Json) : Option α → Json
  | none => .null
  | some a => f a

def ofList {α : Type} (f : α → Json) (as : List α) : Json :=
  .array (as.map f)

/-- Leaves at most `depth` containers around each other. -/
def truncate : Nat → Json → Json
  | 0, .array _ => .unreadable
  | 0, .object _ => .unreadable
  | depth + 1, .array items => .array (items.map (truncate depth))
  | depth + 1, .object members => .object (members.map fun (key, j) => (key, truncate depth j))
  | _, j => j

def tagged (tag : String) (value : Json) : Json :=
  .object [(tag, value)]

end Json

end Pseudocode
