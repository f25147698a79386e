import Pseudocode.Recovery.Canary
import Pseudocode.Text.Case

namespace Pseudocode

inductive Level
  | none
  | basic
  | standard
  deriving DecidableEq, Repr

namespace Level

def ofName? (s : String) : Option Level :=
  let n := Case.lower s
  if n ∈ ["none", "0", "o0"] then some .none
  else if n ∈ ["basic", "1", "o1"] then some .basic
  else if n ∈ ["standard", "2", "o2", "default"] then some .standard
  else Option.none

def toNat : Level → Nat
  | .none => 0
  | .basic => 1
  | .standard => 2

end Level

inductive Pass
  | conditionFusion
  | stackSlots
  | canaryGuard
  deriving DecidableEq, Repr

namespace Pass

def all : List Pass :=
  [.conditionFusion, .stackSlots, .canaryGuard]

def name : Pass → String
  | .conditionFusion => "condition-fusion"
  | .stackSlots => "stack-slots"
  | .canaryGuard => "canary-guard"

def description : Pass → String
  | .conditionFusion => "Fuse compare instructions into conditionals"
  | .stackSlots => "Recover stack variables from frame accesses"
  | .canaryGuard => "Label the stack protector canary slot"

/-- Names in any case, with dashes or underscores, in full or short. -/
def ofName? (s : String) : Option Pass :=
  let n := String.ofList ((Case.lower s).toList.map fun c => if c = '_' then '-' else c)
  if n ∈ ["condition-fusion", "fusion"] then some .conditionFusion
  else if n ∈ ["stack-slots", "slots"] then some .stackSlots
  else if n ∈ ["canary-guard", "canary"] then some .canaryGuard
  else none

end Pass

namespace Level

def includes : Level → Pass → Bool
  | .none, _ => false
  | .basic, pass => pass == .conditionFusion
  | .standard, _ => true

end Level

structure Config where
  level : Level
  enabled : List Pass
  /-- Passes that run at no level, unless they are enabled as well. -/
  disabled : List Pass
  comments : Bool
  colors : Bool
  indent : String
  stem : String
  canary : Canary.Settings
  deriving Repr

namespace Config

def ofLevel (level : Level) : Config where
  level := level
  enabled := []
  disabled := []
  comments := true
  colors := false
  indent := "    "
  stem := SlotTable.defaultStem
  canary := .standard

def default : Config := ofLevel .standard

def enable (c : Config) (pass : Pass) : Config :=
  { c with enabled := c.enabled.insert pass, disabled := c.disabled.filter (· ≠ pass) }

def disable (c : Config) (pass : Pass) : Config :=
  { c with disabled := c.disabled.insert pass, enabled := c.enabled.filter (· ≠ pass) }

def runs (c : Config) (pass : Pass) : Bool :=
  if pass ∈ c.enabled then true
  else if pass ∈ c.disabled then false
  else c.level.includes pass

end Config

end Pseudocode
