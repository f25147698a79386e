import Pseudocode.Json.Basic
import Pseudocode.Text.Surrogate

namespace Pseudocode.Json

def Number.ofDigits (ds : List Char) : Nat :=
  ds.foldl (fun n c => 10 * n + (c.toNat - '0'.toNat)) 0

def Number.isDigits (cs : List Char) : Bool :=
  !cs.isEmpty && cs.all Char.isDigit

def Number.isExponent : List Char → Bool
  | '+' :: cs | '-' :: cs => isDigits cs
  | cs => isDigits cs

def Number.isTail : List Char → Bool
  | '.' :: cs =>
    match cs.dropWhile Char.isDigit with
    | [] => isDigits cs
    | 'e' :: rest | 'E' :: rest => !(cs.takeWhile Char.isDigit).isEmpty && isExponent rest
    | _ => false
  | 'e' :: cs | 'E' :: cs => isExponent cs
  | _ => false

/-- Reads a number without its sign. Zero is the only number that starts with a zero. -/
def Number.unsigned? (negative : Bool) (cs : List Char) : Option Number :=
  let whole := cs.takeWhile Char.isDigit
  let rest := cs.dropWhile Char.isDigit
  if whole.isEmpty || (whole.head? == some '0' && 1 < whole.length) then none
  else if rest.isEmpty then some (.integer negative (ofDigits whole))
  else if isTail rest then some (.decimal (String.ofList (if negative then '-' :: cs else cs)))
  else none

def Number.ofChars? : List Char → Option Number
  | '-' :: cs => unsigned? true cs
  | cs => unsigned? false cs

inductive Token
  | leftBrace
  | rightBrace
  | leftBracket
  | rightBracket
  | colon
  | comma
  | null
  | bool (b : Bool)
  | number (n : Number)
  /-- A string, unless half of a surrogate pair stands alone in it; a plain one has no escapes. -/
  | string (s : Option String) (plain : Bool)
  deriving DecidableEq, Repr

namespace Token

def punctuation? : Char → Option Token
  | '{' => some .leftBrace
  | '}' => some .rightBrace
  | '[' => some .leftBracket
  | ']' => some .rightBracket
  | ':' => some .colon
  | ',' => some .comma
  | _ => none

/-- The characters of numbers and of the three words. -/
def isBare (c : Char) : Bool :=
  c.isAlphanum || c == '+' || c == '-' || c == '.'

def ofBare? (cs : List Char) : Option Token :=
  if cs = ['n', 'u', 'l', 'l'] then some .null
  else if cs = ['t', 'r', 'u', 'e'] then some (.bool true)
  else if cs = ['f', 'a', 'l', 's', 'e'] then some (.bool false)
  else (Number.ofChars? cs).map .number

def isBlank (c : Char) : Bool :=
  c == ' ' || c == '\n' || c == '\t' || c == '\r'

def escaped? : Char → Option Char
  | '"' => some '"'
  | '\\' => some '\\'
  | '/' => some '/'
  | 'b' => some '\x08'
  | 'f' => some '\x0c'
  | 'n' => some '\n'
  | 'r' => some '\r'
  | 't' => some '\t'
  | _ => none

def hexDigit? (c : Char) : Option Nat :=
  if c.isDigit then some (c.toNat - '0'.toNat)
  else if 'a' ≤ c ∧ c ≤ 'f' then some (c.toNat - 'a'.toNat + 10)
  else if 'A' ≤ c ∧ c ≤ 'F' then some (c.toNat - 'A'.toNat + 10)
  else none

structure Spelling where
  /-- The units so far, the last one first. Escapes can name surrogates. -/
  units : List Nat
  plain : Bool

namespace Spelling

def empty : Spelling := ⟨[], true⟩

def literal (s : Spelling) (c : Char) : Spelling :=
  ⟨c.toNat :: s.units, s.plain⟩

def escaped (s : Spelling) (u : Nat) : Spelling :=
  ⟨u :: s.units, false⟩

def token (s : Spelling) : Token :=
  .string ((Surrogate.join? [] s.units).map String.ofList) s.plain

end Spelling

/-- Where the scanner stands, with what it has read of the current token. -/
inductive Mode
  | between
  | bare (seen : List Char)
  | text (s : Spelling)
  | escape (s : Spelling)
  /-- Inside the four digits of a unit. -/
  | unit (s : Spelling) (value missing : Nat)

structure Scanner where
  tokens : List Token
  mode : Mode

namespace Scanner

def start : Scanner := ⟨[], .between⟩

def begin (ts : List Token) (c : Char) : Option Scanner :=
  if isBlank c then some ⟨ts, .between⟩
  else if c = '"' then some ⟨ts, .text .empty⟩
  else if isBare c then some ⟨ts, .bare [c]⟩
  else (punctuation? c).map fun t => ⟨t :: ts, .between⟩

def step (s : Scanner) (c : Char) : Option Scanner :=
  let ts := s.tokens
  match s.mode with
  | .between => begin ts c
  | .bare seen =>
    if isBare c then some ⟨ts, .bare (c :: seen)⟩
    else (ofBare? seen.reverse).bind fun t => begin (t :: ts) c
  | .text s =>
    if c = '"' then some ⟨s.token :: ts, .between⟩
    else if c = '\\' then some ⟨ts, .escape s⟩
    else if c < ' ' then none
    else some ⟨ts, .text (s.literal c)⟩
  | .escape s =>
    if c = 'u' then some ⟨ts, .unit s 0 4⟩
    else (escaped? c).map fun e => ⟨ts, .text (s.escaped e.toNat)⟩
  | .unit s value missing =>
    (hexDigit? c).map fun d =>
      let value := 16 * value + d
      if 1 < missing then ⟨ts, .unit s value (missing - 1)⟩ else ⟨ts, .text (s.escaped value)⟩

/-- The text may end between tokens or with a bare one. -/
def finish (s : Scanner) : Option (List Token) :=
  match s.mode with
  | .between => some s.tokens.reverse
  | .bare seen => (ofBare? seen.reverse).map fun t => (t :: s.tokens).reverse
  | _ => none

end Scanner

def scan? (text : List Char) : Option (List Token) :=
  (text.foldlM Scanner.step Scanner.start).bind Scanner.finish

end Token

end Pseudocode.Json
