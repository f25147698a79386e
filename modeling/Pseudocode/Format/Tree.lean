import Pseudocode.Format.Machine
import Pseudocode.Tree.Basic

namespace Pseudocode

namespace Block

def toJson (b : Block) : Json :=
  .object [("start", .ofNat b.start), ("end", .ofNat b.stop)]

def ofJson? (j : Json) : Option Block := do
  let fields ← j.fields?
  let start ← fields.required? "start" Json.nat?
  let stop ← fields.required? "end" Json.nat?
  some ⟨start, stop⟩

end Block

namespace Test

/-- The members of a node with a test; its own members stand in front of the comparison. -/
def toFields (t : Test) (own : Json.Fields) : Json.Fields :=
  [("jump", .ofNat t.jump), ("condition", t.condition.toJson)] ++ own ++
    [("comparison", .ofOption .ofNat t.comparison)]

def ofFields? (fields : Json.Fields) : Option Test := do
  let jump ← fields.required? "jump" Json.nat?
  let condition ← fields.required? "condition" Condition.ofJson?
  let comparison ← fields.maybe? "comparison" Json.nat?
  some ⟨jump, condition, comparison⟩

end Test

mutual

def Item.toJson : Item → Json
  | .block b => .tagged "Block" b.toJson
  | .node n => .tagged "Node" n.toJson

def Node.toJson : Node → Json
  | .seq items => .tagged "Sequence" (.array (Tree.toJsons items))
  | .ifGoto test target =>
    .tagged "IfGoto" (.object (test.toFields [("target", .ofNat target.toNat)]))
  | .andIf test => .tagged "AndIf" (.object (test.toFields []))
  | .ifElse test body otherwise =>
    .tagged "IfElse" (.object (test.toFields
      [("then_branch", .array (Tree.toJsons body)),
        ("else_branch", .array (Tree.toJsons otherwise))]))
  | .jump target => .tagged "Jump" (.ofNat target.toNat)
  | .loop body infinite epilog =>
    .tagged "Loop" (.object [("body", .array (Tree.toJsons body)), ("is_infinite", .bool infinite),
      ("epilog", epilogToJson epilog)])
  | .comment text => .tagged "Comment" (.string text)

def Tree.toJsons : List Item → List Json
  | [] => []
  | item :: items => item.toJson :: Tree.toJsons items

def epilogToJson : Option Node → Json
  | none => .null
  | some n => n.toJson

end

def Tree.toJson (t : Tree) : Json :=
  .array (Tree.toJsons t)

mutual

def Item.ofJson? : Json → Option Item
  | .object [(tag, j)] =>
    if tag = "Block" then (Block.ofJson? j).map .block
    else if tag = "Node" then (Node.ofJson? j).map .node
    else none
  | _ => none

def Node.ofJson? : Json → Option Node
  | .object [(tag, .array items)] =>
    if tag = "Sequence" then (Tree.ofJsons? items).map .seq else none
  | .object [(tag, .object fields)] =>
    if tag = "IfGoto" then do
      let test ← Test.ofFields? fields
      let target ← Json.Fields.required? fields "target" Json.uint64?
      some (.ifGoto test target)
    else if tag = "AndIf" then (Test.ofFields? fields).map .andIf
    else if tag = "IfElse" then do
      let test ← Test.ofFields? fields
      let body ← branchField? "then_branch" fields
      let otherwise ← branchField? "else_branch" fields
      some (.ifElse test (body.getD []) (otherwise.getD []))
    else if tag = "Loop" then do
      let body ← branchField? "body" fields
      let infinite ← Json.Fields.optional? fields "is_infinite" Json.bool? false
      let epilog ← epilogField? fields
      body.map fun body => .loop body infinite epilog
    else none
  | .object [(tag, .number n)] =>
    if tag = "Jump" then (Json.number n).uint64?.map .jump else none
  | .object [(tag, .string text)] => if tag = "Comment" then some (.comment text) else none
  | _ => none

def Tree.ofJsons? : List Json → Option (List Item)
  | [] => some []
  | j :: js => do
    let item ← Item.ofJson? j
    let items ← Tree.ofJsons? js
    some (item :: items)

def branchField? (key : String) : List (String × Json) → Option (Option (List Item))
  | [] => some none
  | (k, .array items) :: fields =>
    if k = key then (Tree.ofJsons? items).map some else branchField? key fields
  | (k, _) :: fields => if k = key then none else branchField? key fields

def epilogField? : List (String × Json) → Option (Option Node)
  | [] => some none
  | (k, .null) :: fields => if k = "epilog" then some none else epilogField? fields
  | (k, j) :: fields =>
    if k = "epilog" then (Node.ofJson? j).map some else epilogField? fields

end

def Tree.ofJson? : Json → Option Tree
  | .array items => Tree.ofJsons? items
  | _ => none

end Pseudocode
