import Pseudocode.Line.Basic
import Pseudocode.Recovery.Findings
import Pseudocode.Tree.View

namespace Pseudocode

/-- How a conditional is met: on its own, or as the `else if` of another one, with the comparison
that stands in front of it. -/
inductive Approach
  | plain
  | chained (leading : Option Nat)

namespace Approach

def isChained : Approach → Bool
  | .plain => false
  | .chained _ => true

/-- The comparison of the test itself goes first. -/
def tested (a : Approach) (test : Test) : Option Nat :=
  match a with
  | .plain => test.comparison
  | .chained leading => test.comparison.or leading

end Approach

namespace Line

def ofBlock (s : Stream) (fused : Marks) (depth : Nat) (b : Block) : List Line :=
  (s.run b.start b.stop).filterMap fun (i, handle) =>
    if fused.contains i.address then none else some ⟨depth, .statement i handle⟩

def echoes (s : Stream) (depth : Nat) (tested : Option Nat) (jump : Nat) : List Line :=
  ((tested.toList ++ [jump]).filterMap s.get?).map fun i => ⟨depth, .echo i⟩

end Line

mutual

def Item.lines (s : Stream) (fused : Marks) (depth : Nat) : Item → List Line
  | .block b => Line.ofBlock s fused depth b
  | .node n => n.lines s fused depth .plain

/-- A conditional opens with its echoes, shows the first branch of its view one step deeper, and
goes on with the other arm. An `else if` stays at the depth of its `if`. -/
def Node.lines (s : Stream) (fused : Marks) (depth : Nat) (approach : Approach) :
    Node → List Line
  | .seq items => Tree.lines s fused depth items
  | .ifGoto test target =>
    Line.echoes s depth test.comparison test.jump ++
      [⟨depth, .ifGoto test.comparison test.condition target⟩]
  | .andIf test =>
    Line.echoes s depth test.comparison test.jump ++
      [⟨depth, .andIf test.comparison test.condition⟩]
  | .ifElse test body otherwise =>
    let view := Conditional.view ⟨test, body, otherwise⟩ s
    let tested := approach.tested test
    Line.echoes s depth tested test.jump ++
      [⟨depth, .openIf approach.isChained tested view.condition⟩] ++
      (if view.swapped then Tree.lines s fused (depth + 1) otherwise
        else Tree.lines s fused (depth + 1) body) ++
      match view.arm with
      | .none => [⟨depth, .close⟩]
      | .block _ =>
        [⟨depth, .openElse⟩] ++ Tree.lines s fused (depth + 1) otherwise ++ [⟨depth, .close⟩]
      | .elseIf leading _ => ⟨depth, .close⟩ :: chainLines s fused depth leading otherwise
  | .jump target => [⟨depth, .jump target⟩]
  | .loop body infinite epilog =>
    [⟨depth, .openLoop infinite⟩] ++ Tree.lines s fused (depth + 1) body ++ [⟨depth, .close⟩] ++
      epilogLines s fused depth epilog
  | .comment text => [⟨depth, .remark text⟩]

def Tree.lines (s : Stream) (fused : Marks) (depth : Nat) : List Item → List Line
  | [] => []
  | item :: items => item.lines s fused depth ++ Tree.lines s fused depth items

def epilogLines (s : Stream) (fused : Marks) (depth : Nat) : Option Node → List Line
  | none => []
  | some n => n.lines s fused depth .plain

/-- The conditional that an alternative consists of, apart from the comparison in front of it. -/
def chainLines (s : Stream) (fused : Marks) (depth : Nat) (leading : Option Nat) :
    List Item → List Line
  | [] => []
  | .block _ :: items => chainLines s fused depth leading items
  | .node n :: _ => n.lines s fused depth (.chained leading)

end

def Line.ofFunction (s : Stream) (findings : Findings) (name : String) (t : Tree) : List Line :=
  let declarations := findings.slots.slots.map fun slot => ⟨1, .declaration slot⟩
  [⟨0, .openFunction name⟩] ++
    (if findings.slots.isEmpty then [] else declarations ++ [⟨0, .blank⟩]) ++
    Tree.lines s findings.fused 1 t ++ [⟨0, .close⟩]

end Pseudocode
