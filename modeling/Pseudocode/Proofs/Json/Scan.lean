import Pseudocode.Json.Printer
import Pseudocode.Json.Token
import Pseudocode.Proofs.Text.Hex

namespace Pseudocode.Json

def isPlain (s : String) : Bool :=
  s.toList.all fun c => escapeChar c = String.singleton c

mutual

/-- The tokens of a value, as they stand in its text. -/
def tokens : Json → List Token
  | .null => [.null]
  | .bool b => [.bool b]
  | .number n => [.number n]
  | .string s => [.string (some s) (isPlain s)]
  | .unreadable => [.null]
  | .array items => [.leftBracket] ++ [.comma].intercalate (itemTokens items) ++ [.rightBracket]
  | .object members =>
    [.leftBrace] ++ [.comma].intercalate (memberTokens members) ++ [.rightBrace]

def itemTokens : List Json → List (List Token)
  | [] => []
  | j :: js => j.tokens :: itemTokens js

def memberTokens : List (String × Json) → List (List Token)
  | [] => []
  | (key, j) :: ms => ([.string (some key) (isPlain key), .colon] ++ j.tokens) :: memberTokens ms

end

namespace Token

namespace Scanner

/-- What is left of the text does not carry on a number or a word. -/
def Delimited (rest : List Char) : Prop :=
  ∀ c ∈ rest.head?, isBare c = false

def run (s : Scanner) (cs : List Char) : Option (List Token) :=
  (cs.foldlM step s).bind finish

variable {ts : List Token} {rest : List Char}

end Scanner

namespace Scanner

variable {ts : List Token} {rest : List Char}

end Scanner

namespace Scanner

variable {ts : List Token} {rest : List Char}

/-- A text is read as some tokens, whatever else has been read and whatever follows. -/
def Reads (text : String) (tokens : List Token) : Prop :=
  ∀ ts rest, Delimited rest →
    run ⟨ts, .between⟩ (text.toList ++ rest) = run ⟨tokens.reverse ++ ts, .between⟩ rest

end Scanner

end Token

open Token Token.Scanner

end Pseudocode.Json
