import Pseudocode.Machine.Instruction
import Pseudocode.Recovery.Slots

namespace Pseudocode

inductive Content
  | statement (i : Instruction) (handle : Nat)
  | remark (text : String)
  | echo (i : Instruction)
  | jump (target : UInt64)
  | ifGoto (tested : Option Nat) (condition : Condition) (target : UInt64)
  | andIf (tested : Option Nat) (condition : Condition)
  | openIf (chained : Bool) (tested : Option Nat) (condition : Condition)
  | openElse
  | openLoop (infinite : Bool)
  | close
  | openFunction (name : String)
  | declaration (slot : Slot)
  | blank

structure Line where
  depth : Nat
  content : Content

namespace Content

def isComment : Content → Bool
  | .remark _ | .echo _ => true
  | _ => false

/-- The instruction that a line shows, as a statement or as the test of a condition. -/
def shown? : Content → Option Nat
  | .statement _ handle => some handle
  | .ifGoto tested _ _ => tested
  | .andIf tested _ => tested
  | .openIf _ tested _ => tested
  | _ => none

end Content

end Pseudocode
