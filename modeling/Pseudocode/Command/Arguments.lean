import Pseudocode.Config
import Pseudocode.Text.Decimal
import Pseudocode.Text.Terminal

namespace Pseudocode

inductive Command
  | decompile (input : String) (only : Option String) (json : Bool) (config : Config)
  | passes (level : Level)

namespace Arguments

inductive Setting
  | function
  | level
  | enable
  | disable
  | stem
  | guard
  | window
  deriving DecidableEq, Repr

inductive Switch
  | verbose
  | json
  | noComments
  | color
  | canaryLoads
  deriving DecidableEq, Repr

namespace Setting

def name : Setting → String
  | .function => "function"
  | .level => "level"
  | .enable => "enable"
  | .disable => "disable"
  | .stem => "slot-prefix"
  | .guard => "canary-symbol"
  | .window => "canary-window"

def usage (s : Setting) : String :=
  let value := s.name.toList.map fun c => if c = '-' then '_' else c.toUpper
  "--" ++ s.name ++ " <" ++ String.ofList value ++ ">"

end Setting

namespace Switch

def name : Switch → String
  | .verbose => "verbose"
  | .json => "json"
  | .noComments => "no-comments"
  | .color => "color"
  | .canaryLoads => "canary-loads"

end Switch

inductive Subcommand
  | decompile
  | passes
  deriving DecidableEq, Repr

namespace Subcommand

def settings : Subcommand → List Setting
  | .decompile => [.function, .level, .enable, .disable, .stem, .guard, .window]
  | .passes => [.level]

def switches : Subcommand → List Switch
  | .decompile => [.verbose, .json, .noComments, .color, .canaryLoads]
  | .passes => [.verbose]

def takesInput : Subcommand → Bool
  | .decompile => true
  | .passes => false

end Subcommand

inductive UsageError
  | malformed
  | badValue (setting : Setting) (value reason : String)
  deriving DecidableEq, Repr

namespace UsageError

open Terminal (styled)

def cause : UsageError → String
  | .malformed => "unexpected or missing arguments"
  | .badValue setting value reason =>
    "invalid value '" ++ styled 33 value ++ "' for '" ++ styled 1 setting.usage ++ "': " ++ reason

def styledMessage (e : UsageError) : String :=
  styled 31 "error:" ++ " " ++ e.cause ++ "\n\nFor more information, try '" ++ styled 1 "--help" ++
    "'.\n"

/-- The message without styles; escape sequences in a value are left out with them. -/
def message (e : UsageError) : String :=
  Terminal.plain e.styledMessage

end UsageError

structure Draft where
  input : Option String
  only : Option String
  level : Option Level
  enable : List Pass
  disable : List Pass
  stem : Option String
  guard : Option String
  window : Option Nat
  switches : List Switch

namespace Draft

def empty : Draft := ⟨none, none, none, [], [], none, none, none, []⟩

def once {α : Type} (old : Option α) (value : Except UsageError α) :
    Except UsageError (Option α) :=
  match old with
  | some _ => .error .malformed
  | none => value.map some

def readLevel (value : String) : Except UsageError Level :=
  match Level.ofName? value with
  | some level => .ok level
  | none => .error (.badValue .level value ("unknown level '" ++ value ++ "'"))

def readPass (setting : Setting) (value : String) : Except UsageError Pass :=
  match Pass.ofName? value with
  | some pass => .ok pass
  | none =>
    .error (.badValue setting value ("unknown pass '" ++ value ++ "' (expected one of: " ++
      ", ".intercalate (Pass.all.map Pass.name) ++ ")"))

def readWindow (value : String) : Except UsageError Nat :=
  match Decimal.read UInt64.size value with
  | .ok n => .ok n
  | .error fault => .error (.badValue .window value fault.message)

def assign (d : Draft) (setting : Setting) (value : String) : Except UsageError Draft :=
  match setting with
  | .function => (once d.only (.ok value)).map fun only => { d with only }
  | .level => (once d.level (readLevel value)).map fun level => { d with level }
  | .enable => (readPass .enable value).map fun pass => { d with enable := d.enable ++ [pass] }
  | .disable => (readPass .disable value).map fun pass => { d with disable := d.disable ++ [pass] }
  | .stem => (once d.stem (.ok value)).map fun stem => { d with stem }
  | .guard => (once d.guard (.ok value)).map fun guard => { d with guard }
  | .window => (once d.window (readWindow value)).map fun window => { d with window }

def turnOn (d : Draft) (switch : Switch) : Except UsageError Draft :=
  if switch ≠ .verbose ∧ switch ∈ d.switches then .error .malformed
  else .ok { d with switches := switch :: d.switches }

def setInput (d : Draft) (path : String) : Except UsageError Draft :=
  if path.isEmpty then .error .malformed else .ok { d with input := some path }

def config (d : Draft) : Config :=
  let base := Config.ofLevel (d.level.getD .standard)
  let enabled := d.enable.foldl Config.enable base
  let chosen := d.disable.foldl Config.disable enabled
  let standard := Canary.Settings.standard
  { chosen with
    comments := .noComments ∉ d.switches
    colors := .color ∈ d.switches
    stem := d.stem.getD SlotTable.defaultStem
    canary := { standard with
      guard := d.guard.getD standard.guard
      window := d.window.getD standard.window
      loads := .canaryLoads ∈ d.switches } }

def command (d : Draft) : Subcommand → Except UsageError Command
  | .passes => .ok (.passes (d.level.getD .standard))
  | .decompile =>
    match d.input with
    | some input => .ok (.decompile input d.only (.json ∈ d.switches) d.config)
    | none => .error .malformed

end Draft

/-- An argument that has been read but not examined. -/
inductive Pending
  | nothing
  | awaiting (setting : Setting)
  | setting (setting : Setting) (value : String)
  | input (path : String)

structure State where
  draft : Draft
  pending : Pending
  optionsEnded : Bool

namespace State

def start : State := ⟨.empty, .nothing, false⟩

/-- Examines what is pending. -/
def settled (st : State) : Except UsageError Draft :=
  match st.pending with
  | .nothing => .ok st.draft
  | .awaiting _ => .error .malformed
  | .setting setting value => st.draft.assign setting value
  | .input path => st.draft.setInput path

def apply (st : State) (f : Draft → Except UsageError Draft) : Except UsageError State := do
  let draft ← st.settled
  let draft ← f draft
  .ok { st with draft, pending := .nothing }

def postpone (st : State) (pending : Pending) : Except UsageError State := do
  let draft ← st.settled
  .ok { st with draft, pending }

def hasInput (st : State) : Bool :=
  match st.pending with
  | .input _ => true
  | _ => st.draft.input.isSome

def positional (cmd : Subcommand) (st : State) (arg : String) : Except UsageError State :=
  if cmd.takesInput && !st.hasInput then st.postpone (.input arg) else .error .malformed

def long (cmd : Subcommand) (st : State) (name : String) (value? : Option String) :
    Except UsageError State :=
  match cmd.settings.find? (·.name = name), cmd.switches.find? (·.name = name), value? with
  | some setting, _, some value => st.apply (·.assign setting value)
  | some setting, _, none => st.postpone (.awaiting setting)
  | none, some switch, none => st.apply (·.turnOn switch)
  | _, _, _ => .error .malformed

/-- Options by their letters; the value of one that takes a value is the rest of the letters, or
else the next argument. -/
def short (cmd : Subcommand) (st : State) : List Char → Except UsageError State
  | [] => .ok st
  | c :: cs =>
    if c = 'v' then do
      let st ← st.apply (·.turnOn .verbose)
      short cmd st cs
    else if c = 'f' ∧ .function ∈ cmd.settings then
      match cs with
      | [] => st.postpone (.awaiting .function)
      | '=' :: value => st.apply (·.assign .function (String.ofList value))
      | value => st.apply (·.assign .function (String.ofList value))
    else .error .malformed

def step (cmd : Subcommand) (st : State) (arg : String) : Except UsageError State :=
  if st.optionsEnded then positional cmd st arg
  else
    match arg.toList with
    | ['-', '-'] => .ok { st with optionsEnded := true }
    | '-' :: '-' :: cs =>
      let name := String.ofList (cs.takeWhile (· ≠ '='))
      match cs.dropWhile (· ≠ '=') with
      | _ :: value => long cmd st name (some (String.ofList value))
      | [] => long cmd st name none
    | '-' :: c :: cs => short cmd st (c :: cs)
    | _ =>
      match st.pending with
      | .awaiting setting => .ok { st with pending := .setting setting arg }
      | _ => positional cmd st arg

end State

def readSubcommand (cmd : Subcommand) (args : List String) : Except UsageError Command := do
  let st ← args.foldlM (State.step cmd) State.start
  let draft ← st.settled
  draft.command cmd

def isVerbosity (arg : String) : Bool :=
  match arg.toList with
  | '-' :: 'v' :: cs => cs.all (· = 'v')
  | _ => arg = "--" ++ Switch.verbose.name

/-- Only verbosity may stand in front of the subcommand. -/
def read : List String → Except UsageError Command
  | [] => .error .malformed
  | arg :: args =>
    if arg = "decompile" then readSubcommand .decompile args
    else if arg = "passes" then readSubcommand .passes args
    else if isVerbosity arg then read args
    else .error .malformed

end Arguments

end Pseudocode
