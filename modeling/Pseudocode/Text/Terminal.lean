namespace Pseudocode.Terminal

def styled (code : Nat) (text : String) : String :=
  "\x1b[" ++ Nat.repr code ++ "m" ++ text ++ "\x1b[0m"

inductive Mode
  | ground
  | escape
  | escapeTail
  | control
  | deviceHead
  | deviceParameters
  | deviceTail
  | body
  | command
  deriving DecidableEq, Repr

namespace Mode

def terminator : UInt8 := 0x9c

def ofEscape (c : Char) : Mode :=
  if c < ' ' then .escape
  else if c ≤ '/' then .escapeTail
  else if c = '[' then .control
  else if c = ']' then .command
  else if c = 'P' then .deviceHead
  else if c = 'X' ∨ c = '^' ∨ c = '_' then .body
  else if c ≤ '~' then .ground
  else .escape

/-- Where a character that is not shown leads. Two characters break off any sequence, and an escape
starts a new one. -/
def next (m : Mode) (c : Char) : Mode :=
  if c = '\x18' ∨ c = '\x1a' then .ground
  else if c = '\x1b' then .escape
  else
    match m with
    | .ground => .ground
    | .escape => ofEscape c
    | .escapeTail => if '0' ≤ c ∧ c ≤ '~' then .ground else m
    | .control => if '@' ≤ c ∧ c ≤ '~' then .ground else m
    | .deviceHead =>
      if c < ' ' ∨ '~' < c then m
      else if c ≤ '/' then .deviceTail
      else if c ≤ '?' then .deviceParameters
      else .body
    | .deviceParameters =>
      if c < ' ' ∨ '~' < c then m
      else if c ≤ '/' then .deviceTail
      else if c ≤ ';' then m
      else .body
    | .deviceTail => if '0' ≤ c ∧ c ≤ '~' then .body else m
    -- the byte counts inside a character, too
    | .body => if terminator ∈ String.utf8EncodeChar c then .ground else m
    | .command => if c = '\x07' then .ground else m

def isSpacing (c : Char) : Bool :=
  c == '\t' || c == '\n' || c == '\x0c' || c == '\r'

def shows (m : Mode) (c : Char) : Bool :=
  match m with
  | .ground => isSpacing c || (' ' ≤ c && c != '\x7f')
  | .escape | .escapeTail | .control => isSpacing c
  | _ => false

end Mode

structure Screen where
  mode : Mode
  /-- Whether the last character was shown. Then what can be shown outside of sequences is shown,
  and a sequence goes on with the first character that is not. -/
  showing : Bool
  shown : List Char

namespace Screen

def start : Screen := ⟨.ground, false, []⟩

def step (s : Screen) (c : Char) : Screen :=
  let mode := if s.showing then .ground else s.mode
  if mode.shows c then ⟨if c ≤ '\x7f' then s.mode else .ground, true, c :: s.shown⟩
  else ⟨s.mode.next c, false, s.shown⟩

end Screen

def plain (text : String) : String :=
  String.ofList (text.toList.foldl Screen.step Screen.start).shown.reverse

end Pseudocode.Terminal
