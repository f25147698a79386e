import Pseudocode.Command.Arguments
import Pseudocode.Command.Report
import Pseudocode.Format.Program

namespace Pseudocode

inductive Failure
  | unreadable (path : String)
  | malformed (path : String)
  | badInstructions (function : String) (cause : Error)
  | badTree (function : String) (cause : Error)
  | noSuchFunction (name : String)
  | noFunctions
  deriving DecidableEq, Repr

namespace Failure

def message : Failure → String
  | .unreadable path => "Failed to read program: " ++ path
  | .malformed path => "Failed to parse program: " ++ path
  | .badInstructions function _ => "Invalid instructions in function " ++ function
  | .badTree function _ => "Invalid tree in function " ++ function
  | .noSuchFunction name => "Function not found: " ++ name
  | .noFunctions => "Program contains no functions"

def cause? : Failure → Option Error
  | .badInstructions _ cause | .badTree _ cause => some cause
  | _ => none

end Failure

namespace Listing

def load (l : Listing) : Except Failure Function :=
  match Stream.ofList l.instructions with
  | .error e => .error (.badInstructions l.name e)
  | .ok s =>
    match Tree.validate l.tree s with
    | .error e => .error (.badTree l.name e)
    | .ok _ => .ok ⟨l.name, s, l.tree⟩

end Listing

namespace Program

def select (p : Program) (only : Option String) : List Listing :=
  p.functions.filter fun l => only.all (· == l.name)

/-- Functions that are not asked for are not checked. -/
def load (p : Program) (only : Option String) : Except Failure (List Function) := do
  let functions ← (p.select only).mapM Listing.load
  match functions, only with
  | [], some name => .error (.noSuchFunction name)
  | [], none => .error .noFunctions
  | _, _ => .ok functions

end Program

namespace Config

def report (c : Config) (image : Image) (f : Function) : Report :=
  let recovered := c.decompile image.symbols f.stream f.tree
  .ofRecovered f.name recovered (c.render image f.name f.stream recovered)

end Config

namespace Command

/-- One empty line stands between two functions. -/
def textOutput (reports : List Report) : String :=
  "\n".intercalate (reports.map Report.text)

def jsonOutput (reports : List Report) : String :=
  (Json.ofList Report.toJson reports).pretty 0 ++ "\n"

def runProgram (p : Program) (only : Option String) (json : Bool) (config : Config) :
    Except Failure String := do
  let functions ← p.load only
  let reports := functions.map (config.report p.image)
  .ok (if json then jsonOutput reports else textOutput reports)

def column (width : Nat) (s : String) : String :=
  s ++ String.join (List.replicate (width - s.length) " ") ++ " "

def passLine (name enabled description : String) : String :=
  column 18 name ++ column 8 enabled ++ description ++ "\n"

def passesOutput (level : Level) : String :=
  let config := Config.ofLevel level
  passLine "PASS" "ENABLED" "DESCRIPTION" ++ String.join (List.replicate 64 "-") ++ "\n" ++
    String.join (Pass.all.map fun pass =>
      passLine pass.name (if config.runs pass then "yes" else "no") pass.description)

def input? : Command → Option String
  | .decompile input .. => some input
  | .passes _ => none

/-- Runs a command on the text of its file, which is missing if it cannot be read. -/
def run (text? : Option String) : Command → Except Failure String
  | .passes level => .ok (passesOutput level)
  | .decompile input only json config =>
    match text? with
    | none => .error (.unreadable input)
    | some text =>
      match Program.parse? text with
      | none => .error (.malformed input)
      | some p => runProgram p only json config

end Command

end Pseudocode
