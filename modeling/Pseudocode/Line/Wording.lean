import Pseudocode.Line.Layout

namespace Pseudocode

inductive Span
  | text (s : String)
  | address (a : UInt64)
  deriving DecidableEq, Repr

structure Scene where
  arch : Arch
  stream : Stream
  slots : SlotTable
  symbols : Symbols

inductive Tested
  | pair (a b : String)
  | value (spans : List Span) (compound : Bool)

namespace Scene

/-- A local variable goes by the name of its slot. -/
def operand (scene : Scene) (op : Operand) : String :=
  ((op.asLocal?.map Memory.displacement).bind scene.slots.nameOf?).getD op.text

def operands (scene : Scene) (i : Instruction) : List String :=
  i.operands.map scene.operand

def target (scene : Scene) (op : Operand) : List Span :=
  match op.directTarget? with
  | none => [.text (scene.operand op)]
  | some a =>
    .address a :: ((scene.symbols.nameAt? a).toList.map fun name => .text (" <" ++ name ++ ">"))

/-- An instruction that neither jumps nor calls. An exclusive-or of a place with itself clears it. -/
def assignment (operation : Operation) (mnemonic : String) (operands : List String) : String :=
  match operation, operands with
  | .inc, [dst] => dst ++ "++"
  | .dec, [dst] => dst ++ "--"
  | .neg, [dst] => dst ++ " = -" ++ dst
  | .not, [dst] => dst ++ " = ~" ++ dst
  | .ret, _ => "ret"
  | .loadEffectiveAddress, [dst, src] => dst ++ " = &" ++ src
  | operation, [dst, src] =>
    if operation = .xor ∧ dst = src then dst ++ " = 0"
    else
      match operation.assignOperator? with
      | some symbol => dst ++ " " ++ symbol ++ " " ++ src
      | none => Instruction.withOperands mnemonic [dst, src]
  | _, operands => Instruction.withOperands mnemonic operands

def statement (scene : Scene) (i : Instruction) : List Span :=
  if i.isCall then
    match i.operands with
    | [] => [.text "call"]
    | op :: _ => .text "call " :: scene.target op
  else
    match i.operation, i.operands with
    | .jump, op :: _ => .text "jmp " :: scene.target op
    | operation, _ => [.text (assignment operation i.mnemonic (scene.operands i))]

def tested (scene : Scene) (i : Instruction) : Tested :=
  match i.operation, scene.operands i with
  | .compare, [a, b] => .pair a b
  | .test, [a, b] =>
    if i.isSelfTest then .value [.text a] false else .value [.text (a ++ " & " ++ b)] true
  | _, _ => .value (scene.statement i) true

/-- A condition on a tested instruction; without one, its symbol has to do. -/
def condition (scene : Scene) (tested : Option Nat) (c : Condition) : List Span :=
  match tested.bind scene.stream.get? with
  | none => [.text c.symbol]
  | some i =>
    match scene.tested i, c.isRelational with
    | .pair a b, true => [.text (a ++ " " ++ c.symbol ++ " " ++ b)]
    | .pair a b, false => [.text (c.symbol ++ "(" ++ a ++ " - " ++ b ++ ")")]
    | .value spans compound, true =>
      (if compound then [.text "("] ++ spans ++ [.text ")"] else spans) ++
        [.text (" " ++ c.symbol ++ " 0")]
    | .value spans _, false => [.text (c.symbol ++ "(")] ++ spans ++ [.text ")"]

/-- Slots of the usual widths are integers, all others are bytes. -/
def slotType (size : UInt8) : String :=
  match size.toNat with
  | 1 => "int8_t"
  | 2 => "int16_t"
  | 4 => "int32_t"
  | 8 => "int64_t"
  | n => "uint8_t[" ++ Nat.repr n ++ "]"

def declaration (scene : Scene) (slot : Slot) : String :=
  slotType slot.size ++ " " ++ slot.name ++ ";  // [" ++ scene.arch.framePointer ++
    (if slot.displacement < 0 then " - " else " + ") ++
    Hex.literal slot.displacement.toInt.natAbs ++ "]"

def content (scene : Scene) : Content → List Span
  | .statement i _ => [.address i.address, .text ": "] ++ scene.statement i
  | .remark text => [.text ("# " ++ text)]
  | .echo i => [.text ("# " ++ Hex.literal i.address.toNat ++ ": " ++ i.asm)]
  | .jump target => [.text "jmp ", .address target]
  | .ifGoto tested c target =>
    [.text "if "] ++ scene.condition tested c ++ [.text "  goto ", .address target]
  | .andIf tested c => [.text "and if "] ++ scene.condition tested c
  | .openIf chained tested c =>
    [.text (if chained then "else if " else "if ")] ++ scene.condition tested c ++ [.text " \x7b"]
  | .openElse => [.text "\x7d else \x7b"]
  | .openLoop infinite => [.text (if infinite then "infiniteloop \x7b" else "loop \x7b")]
  | .close => [.text "\x7d"]
  | .openFunction name => [.text ("function " ++ name ++ " \x7b")]
  | .declaration slot => [.text (scene.declaration slot)]
  | .blank => []

end Scene

end Pseudocode
