import Pseudocode.Json.Token

namespace Pseudocode.Json

namespace Parser

/-- An open container with what it holds so far, the last first. -/
inductive Frame
  | array (seen : List Json)
  | object (seen : List (Option String × Json))
  | member (seen : List (Option String × Json)) (key : Option String)

inductive Stage
  | value
  | valueOrEnd
  | keyOrEnd
  | key
  | colon
  | commaOrEnd
  | done (v : Json)

structure State where
  stack : List Frame
  stage : Stage

def start : State := ⟨[], .value⟩

def supply (v : Json) : List Frame → Option State
  | [] => some ⟨[], .done v⟩
  | .array seen :: stack => some ⟨.array (v :: seen) :: stack, .commaOrEnd⟩
  | .member seen key :: stack => some ⟨.object ((key, v) :: seen) :: stack, .commaOrEnd⟩
  | .object _ :: _ => none

/-- An object with an unreadable key is unreadable as a whole. -/
def object (members : List (Option String × Json)) : Json :=
  match members.mapM fun (key?, j) => key?.map (·, j) with
  | some members => .object members
  | none => .unreadable

def value (stack : List Frame) : Token → Option State
  | .null => supply .null stack
  | .bool b => supply (.bool b) stack
  | .number n => supply (.number n) stack
  | .string (some s) _ => supply (.string s) stack
  | .string none _ => supply .unreadable stack
  | .leftBracket => some ⟨.array [] :: stack, .valueOrEnd⟩
  | .leftBrace => some ⟨.object [] :: stack, .keyOrEnd⟩
  | _ => none

def close : List Frame → Token → Option State
  | .array seen :: stack, .rightBracket => supply (.array seen.reverse) stack
  | .object seen :: stack, .rightBrace => supply (object seen.reverse) stack
  | _, _ => none

def path : List Frame → List String
  | [] => []
  | .member _ (some key) :: stack => path stack ++ [key]
  | _ :: stack => path stack

/-- Keys with escapes are unreadable where they have to be plain. -/
def key (plainAt : List String → Bool) : List Frame → Token → Option State
  | .object seen :: stack, .string k plain =>
    let k := if plain || !plainAt (path stack) then k else none
    some ⟨.member seen k :: stack, .colon⟩
  | _, _ => none

def comma : List Frame → Option State
  | .array seen :: stack => some ⟨.array seen :: stack, .value⟩
  | .object seen :: stack => some ⟨.object seen :: stack, .key⟩
  | _ => none

def step (plainAt : List String → Bool) (s : State) (t : Token) : Option State :=
  match s.stage with
  | .value => value s.stack t
  | .valueOrEnd => (close s.stack t).or (value s.stack t)
  | .keyOrEnd => (close s.stack t).or (key plainAt s.stack t)
  | .key => key plainAt s.stack t
  | .colon => if t = .colon then some ⟨s.stack, .value⟩ else none
  | .commaOrEnd => if t = .comma then comma s.stack else close s.stack t
  | .done _ => none

def finish (s : State) : Option Json :=
  match s.stage with
  | .done v => some v
  | _ => none

end Parser

/-- Reads one value with nothing but blanks around it. Where `plainAt` holds of the keys that lead to
an object, its own keys have to be written without escapes. -/
def parse? (plainAt : List String → Bool) (text : String) : Option Json := do
  let tokens ← Token.scan? text.toList
  let state ← tokens.foldlM (Parser.step plainAt) Parser.start
  Parser.finish state

end Pseudocode.Json
