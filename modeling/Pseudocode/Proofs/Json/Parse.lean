import Pseudocode.Json.Parser
import Pseudocode.Proofs.Json.Scan

namespace Pseudocode.Json

open Token

namespace Parser

def run (s : State) (ts : List Token) : Option Json :=
  (ts.foldlM (step fun _ => false) s).bind finish

/-- The tokens of a value make the value, which goes to the container around it. -/
def Reads (j : Json) : Prop :=
  ∀ stack rest, run ⟨stack, .value⟩ (j.tokens ++ rest) =
    (supply j stack).bind fun s => run s rest

variable (stack : List Frame) (rest : List Token)

end Parser

end Pseudocode.Json
