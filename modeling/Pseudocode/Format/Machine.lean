import Pseudocode.Json.Decode
import Pseudocode.Machine.Instruction

namespace Pseudocode

namespace Arch

def tag : Arch → String
  | .x86_64 => "X86_64"
  | .x86 => "X86"

def toJson (a : Arch) : Json :=
  .string a.tag

def ofJson? : Json → Option Arch :=
  Json.ofNames? [.x86_64, .x86] tag

end Arch

namespace RegisterKind

def tag : RegisterKind → String
  | .general => "General"
  | .segment => "Segment"
  | .programCounter => "ProgramCounter"
  | .flags => "Flags"
  | .other => "Other"

def ofJson? : Json → Option RegisterKind :=
  Json.ofNames? [.general, .segment, .programCounter, .flags, .other] tag

end RegisterKind

namespace Register

def toJson (r : Register) : Json :=
  .object [("arch", r.arch.toJson), ("class", .string r.kind.tag), ("id", .ofNat r.id.toNat),
    ("size", .ofNat r.size.toNat)]

def ofJson? (j : Json) : Option Register := do
  let fields ← j.fields?
  let arch ← fields.required? "arch" Arch.ofJson?
  let kind ← fields.required? "class" RegisterKind.ofJson?
  let id ← fields.required? "id" Json.uint16?
  let size ← fields.required? "size" Json.uint16?
  some ⟨arch, kind, id, size⟩

end Register

namespace Immediate

def ofJson? (j : Json) : Option Immediate := do
  let fields ← j.fields?
  let value ← fields.required? "value" Json.int128?
  let size ← fields.required? "size" Json.uint8?
  let isSigned ← fields.required? "signed" Json.bool?
  some ⟨value, size, isSigned⟩

end Immediate

namespace Memory

def toJson (m : Memory) : Json :=
  .object [("base", .ofOption Register.toJson m.base), ("index", .ofOption Register.toJson m.index),
    ("scale", .ofNat m.scale.toNat), ("displacement", .ofInt m.displacement.toInt),
    ("size", .ofNat m.size.toNat), ("segment", .ofOption Register.toJson m.segment)]

def ofJson? (j : Json) : Option Memory := do
  let fields ← j.fields?
  let base ← fields.maybe? "base" Register.ofJson?
  let index ← fields.maybe? "index" Register.ofJson?
  let scale ← fields.optional? "scale" Json.uint8? 1
  let displacement ← fields.optional? "displacement" Json.int64? 0
  let size ← fields.required? "size" Json.uint8?
  let segment ← fields.maybe? "segment" Register.ofJson?
  some ⟨base, index, scale, displacement, size, segment⟩

end Memory

namespace Operand

def relativeOfJson? (j : Json) : Option Operand := do
  let fields ← j.fields?
  let offset ← fields.required? "offset" Json.int64?
  let target ← fields.required? "target" Json.uint64?
  some (.relative offset target)

def ofJson? (j : Json) : Option Operand := do
  let (tag, data) ← j.variant?
  if tag = "Register" then (Register.ofJson? data).map .register
  else if tag = "Immediate" then (Immediate.ofJson? data).map .immediate
  else if tag = "Memory" then (Memory.ofJson? data).map .memory
  else if tag = "PcRelative" then relativeOfJson? data
  else none

end Operand

namespace Condition

def tag : Condition → String
  | .equal => "Equal"
  | .notEqual => "NotEqual"
  | .above => "Above"
  | .aboveOrEqual => "AboveOrEqual"
  | .below => "Below"
  | .belowOrEqual => "BelowOrEqual"
  | .greater => "Greater"
  | .greaterOrEqual => "GreaterOrEqual"
  | .less => "Less"
  | .lessOrEqual => "LessOrEqual"
  | .sign => "Sign"
  | .notSign => "NotSign"
  | .overflow => "Overflow"
  | .notOverflow => "NotOverflow"
  | .parity => "Parity"
  | .notParity => "NotParity"

def all : List Condition :=
  [.equal, .notEqual, .above, .aboveOrEqual, .below, .belowOrEqual, .greater, .greaterOrEqual,
    .less, .lessOrEqual, .sign, .notSign, .overflow, .notOverflow, .parity, .notParity]

def toJson (c : Condition) : Json :=
  .string c.tag

def ofJson? : Json → Option Condition :=
  Json.ofNames? all tag

theorem ofJson?_toJson (c : Condition) : ofJson? c.toJson = some c := by
  cases c <;> decide

end Condition

namespace Operation

def tag : Operation → String
  | .move => "Move"
  | .load => "Load"
  | .store => "Store"
  | .push => "Push"
  | .pop => "Pop"
  | .exchange => "Exchange"
  | .loadEffectiveAddress => "LoadEffectiveAddress"
  | .add => "Add"
  | .sub => "Sub"
  | .mul => "Mul"
  | .div => "Div"
  | .neg => "Neg"
  | .inc => "Inc"
  | .dec => "Dec"
  | .and => "And"
  | .or => "Or"
  | .xor => "Xor"
  | .not => "Not"
  | .shl => "Shl"
  | .shr => "Shr"
  | .sar => "Sar"
  | .rol => "Rol"
  | .ror => "Ror"
  | .compare => "Compare"
  | .test => "Test"
  | .jump => "Jump"
  | .conditionalJump => "ConditionalJump"
  | .call => "Call"
  | .ret => "Return"
  | .nop => "Nop"
  | .halt => "Halt"
  | .other _ => "Other"

def named : List Operation :=
  [.move, .load, .store, .push, .pop, .exchange, .loadEffectiveAddress, .add, .sub, .mul, .div,
    .neg, .inc, .dec, .and, .or, .xor, .not, .shl, .shr, .sar, .rol, .ror, .compare, .test, .jump,
    .conditionalJump, .call, .ret, .nop, .halt]

def toJson : Operation → Json
  | .other code => .tagged "Other" (.ofNat code.toNat)
  | op => .string op.tag

def ofJson? (j : Json) : Option Operation :=
  match j.variant? with
  | some ("Other", code) => code.uint16?.map .other
  | _ => Json.ofNames? named tag j

end Operation

namespace Flow

def toJson : Flow → Json
  | .sequential => .string "Sequential"
  | .unconditionalBranch target =>
    .tagged "UnconditionalBranch" (.object [("target", .ofNat target.toNat)])
  | .conditionalBranch target condition fallthrough =>
    .tagged "ConditionalBranch" (.object [("target", .ofNat target.toNat),
      ("condition", condition.toJson), ("fallthrough", .ofNat fallthrough.toNat)])
  | .indirectBranch => .string "IndirectBranch"
  | .call target returnAddress =>
    .tagged "Call" (.object [("target", .ofNat target.toNat),
      ("return_addr", .ofNat returnAddress.toNat)])
  | .indirectCall returnAddress =>
    .tagged "IndirectCall" (.object [("return_addr", .ofNat returnAddress.toNat)])
  | .ret => .string "Return"
  | .halt => .string "Halt"

def ofTag? (tag : String) : Option Flow :=
  if tag = "Sequential" then some .sequential
  else if tag = "IndirectBranch" then some .indirectBranch
  else if tag = "Return" then some .ret
  else if tag = "Halt" then some .halt
  else none

def ofFields? (tag : String) (fields : Json.Fields) : Option Flow :=
  if tag = "UnconditionalBranch" then
    (fields.required? "target" Json.uint64?).map .unconditionalBranch
  else if tag = "ConditionalBranch" then do
    let target ← fields.required? "target" Json.uint64?
    let condition ← fields.required? "condition" Condition.ofJson?
    let fallthrough ← fields.required? "fallthrough" Json.uint64?
    some (.conditionalBranch target condition fallthrough)
  else if tag = "Call" then do
    let target ← fields.required? "target" Json.uint64?
    let returnAddress ← fields.required? "return_addr" Json.uint64?
    some (.call target returnAddress)
  else if tag = "IndirectCall" then
    (fields.required? "return_addr" Json.uint64?).map .indirectCall
  else none

def ofJson? (j : Json) : Option Flow :=
  match j.variant? with
  | some (tag, .object fields) => ofFields? tag fields
  | _ => j.tag?.bind ofTag?

end Flow

namespace Instruction

def ofJson? (j : Json) : Option Instruction := do
  let fields ← j.fields?
  let address ← fields.required? "address" Json.uint64?
  let size ← fields.optional? "size" Json.nat? 0
  let bytes ← fields.optional? "bytes" (Json.list? Json.uint8?) []
  let operation ← fields.required? "operation" Operation.ofJson?
  let mnemonic ← fields.required? "mnemonic" Json.string?
  let operands ← fields.optional? "operands" (Json.list? Operand.ofJson?) []
  let flow ← fields.optional? "control_flow" Flow.ofJson? .sequential
  some ⟨address, size, bytes, operation, mnemonic, operands, flow⟩

end Instruction

end Pseudocode
