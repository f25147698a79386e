import Pseudocode.Decompile
import Pseudocode.Format.Tree
import Pseudocode.Json.Parser

namespace Pseudocode

/-- A function as it is handed in; nothing about it is checked yet. -/
structure Listing where
  name : String
  instructions : List Instruction
  tree : Tree

structure Program where
  image : Image
  functions : List Listing

namespace Symbols

def ofJson? (j : Json) : Option Symbols := do
  let fields ← j.fields?
  let entries ← fields.mapM fun (name, value) => do some (name, ← value.uint64?)
  some (.ofList entries)

end Symbols

namespace Edges

def keyOfString? (s : String) : Option UInt64 := do
  let n ← Json.Number.ofChars? s.toList
  (Json.number n).uint64?

def ofJson? (j : Json) : Option Edges := do
  let fields ← j.fields?
  let entries ← fields.mapM fun (key, value) => do
    some (← keyOfString? key, ← value.list? Json.uint64?)
  some (.ofList entries)

end Edges

namespace Image

def ofFields? (fields : Json.Fields) : Option Image := do
  let arch ← fields.optional? "arch" Arch.ofJson? .x86_64
  let symbols ← fields.optional? "symbols" Symbols.ofJson? .empty
  let edges ← fields.optional? "edges" Edges.ofJson? .empty
  some ⟨arch, symbols, edges⟩

end Image

namespace Listing

def ofJson? (j : Json) : Option Listing := do
  let fields ← j.fields?
  let name ← fields.required? "name" Json.string?
  let instructions ← fields.required? "instructions" (Json.list? Instruction.ofJson?)
  let tree ← fields.required? "ast" Tree.ofJson?
  some ⟨name, instructions, tree⟩

end Listing

namespace Program

def ofJson? (j : Json) : Option Program := do
  let fields ← j.fields?
  let image ← Image.ofFields? fields
  let functions ← fields.required? "functions" (Json.list? Listing.ofJson?)
  some ⟨image, functions⟩

/-- How many containers may lie around each other where a file is read. Members without a meaning
are passed over, however deep they are. -/
def maxDepth : Nat := 127

def plainAt (path : List String) : Bool :=
  path == ["edges"]

def parse? (text : String) : Option Program :=
  (Json.parse? plainAt text).bind fun j => ofJson? (j.truncate maxDepth)

end Program

end Pseudocode
