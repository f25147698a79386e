import Pseudocode.Command.Run

namespace Pseudocode

def readText (path : String) : IO (Option String) :=
  try
    let text ← IO.FS.readFile path
    return some text
  catch _ => return none

def Failure.report (f : Failure) : String :=
  "Error: " ++ f.message ++
    match f.cause? with
    | some cause => "\n\nCaused by:\n    " ++ cause.message
    | none => ""

def execute (args : List String) : IO UInt32 := do
  match Arguments.read args with
  | .error e =>
    IO.eprint e.message
    return 2
  | .ok command =>
    let text? ← match command.input? with
      | some path => readText path
      | none => pure none
    match command.run text? with
    | .ok output =>
      IO.print output
      return 0
    | .error f =>
      IO.eprintln f.report
      return 1

end Pseudocode

def main (args : List String) : IO UInt32 :=
  Pseudocode.execute args
