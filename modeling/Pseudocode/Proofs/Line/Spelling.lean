import Pseudocode.Line.Text
import Pseudocode.Proofs.Text.Spelling

namespace Pseudocode

def Span.Spelled (p : Char → Prop) : Span → Prop
  | .text s => Pseudocode.Spelled p s
  | .address _ => True

structure Scene.Spelling (p : Char → Prop) (scene : Scene) : Prop where
  slots : ∀ slot ∈ scene.slots.slots, Spelled p slot.name
  symbols : ∀ a name, scene.symbols.nameAt? a = some name → Spelled p name
  mnemonics : ∀ i ∈ scene.stream.instructions, Spelled p i.mnemonic

def Tested.Spelled (p : Char → Prop) : Tested → Prop
  | .pair a b => Pseudocode.Spelled p a ∧ Pseudocode.Spelled p b
  | .value spans _ => ∀ span ∈ spans, span.Spelled p

/-- What a line brings in from outside the fixed wording is spelled with `p`. -/
def Content.Spelled (p : Char → Prop) (scene : Scene) : Content → Prop
  | .statement i _ => i ∈ scene.stream.instructions
  | .echo i => i ∈ scene.stream.instructions
  | .remark text => Pseudocode.Spelled p text
  | .openFunction name => Pseudocode.Spelled p name
  | .declaration slot => slot ∈ scene.slots.slots
  | _ => True

/-- The words of a line without the brace that it closes in front and the one that it opens at its
end. -/
def Scene.words (scene : Scene) : Content → List Span
  | .openIf chained tested c =>
    [.text (if chained then "else if " else "if ")] ++ scene.condition tested c ++ [.text " "]
  | .openElse => [.text " else "]
  | .openLoop infinite => [.text (if infinite then "infiniteloop " else "loop ")]
  | .close => []
  | .openFunction name => [.text ("function " ++ name ++ " ")]
  | content => scene.content content

section

variable {p : Char → Prop} (hp : ∀ c, isPlain c = true → p c)
include hp

theorem Span.spelled_render {span : Span} (hs : span.Spelled p) :
    Pseudocode.Spelled p (span.render none) := by
  cases span with
  | text s => exact hs
  | address a => exact Spelled.literal hp a.toNat

theorem Register.spelled_name (r : Register) : Spelled p r.name := by
  have hn : ∀ k, ∀ name ∈ names k, name.toList.all isPlain = true := by
    intro k
    unfold names
    split
    all_goals decide
  have hs : ∀ name ∈ segmentNames, name.toList.all isPlain = true := by decide
  apply Spelled.of_all hp
  rw [name]
  split
  · cases h : (names r.size.toNat)[r.id.toNat]? with
    | none => decide
    | some name => exact hn _ name (List.mem_of_getElem? h)
  · cases h : segmentNames[r.id.toNat - 32]? with
    | none => decide
    | some name => exact hs name (List.mem_of_getElem? h)

theorem Immediate.spelled_text (imm : Immediate) : Spelled p imm.text := by
  rw [text]
  split
  · exact Spelled.signed hp _
  · exact Spelled.literal hp _

namespace Memory

theorem spelled_indexText (m : Memory) (index : Register) : Spelled p (m.indexText index) := by
  rw [indexText]
  split
  · apply Spelled.append
    · exact (index.spelled_name hp).append (Spelled.of_all hp (by decide))
    · exact Spelled.repr hp m.scale.toNat
  · exact index.spelled_name hp

theorem spelled_registerTexts (m : Memory) : ∀ s ∈ m.registerTexts, Spelled p s := by
  intro s hs
  obtain hs | hs := List.mem_append.mp hs
  · obtain ⟨r, -, rfl⟩ := List.mem_map.mp hs
    exact r.spelled_name hp
  · obtain ⟨r, -, rfl⟩ := List.mem_map.mp hs
    exact m.spelled_indexText hp r

theorem spelled_addressText (m : Memory) : Spelled p m.addressText := by
  have hr := m.spelled_registerTexts hp
  rw [addressText]
  split
  · exact Spelled.literal hp _
  · have hi := Spelled.intercalate (Spelled.of_all (s := " + ") hp (by decide)) hr
    split
    · exact hi
    · refine (hi.append ?_).append (Spelled.literal hp _)
      split
      · exact Spelled.of_all hp (by decide)
      · exact Spelled.of_all hp (by decide)

theorem spelled_text (m : Memory) : Spelled p m.text := by
  rw [text]
  refine ((Spelled.append ?_ (Spelled.of_all hp (by decide))).append
    (m.spelled_addressText hp)).append (Spelled.of_all hp (by decide))
  cases m.segment with
  | none => exact Spelled.of_all hp (by decide)
  | some r => exact (r.spelled_name hp).append (Spelled.of_all hp (by decide))

end Memory

theorem Operand.spelled_text (op : Operand) : Spelled p op.text := by
  cases op with
  | register r => exact r.spelled_name hp
  | immediate imm => exact imm.spelled_text hp
  | memory m => exact m.spelled_text hp
  | relative offset target => exact Spelled.literal hp _

theorem Instruction.spelled_withOperands {mnemonic : String} {operands : List String}
    (hm : Spelled p mnemonic) (ho : ∀ s ∈ operands, Spelled p s) :
    Spelled p (withOperands mnemonic operands) := by
  cases operands with
  | nil => exact hm
  | cons s l =>
    have hm := hm.append (Spelled.of_all (s := " ") hp (by decide))
    exact hm.append (Spelled.intercalate (Spelled.of_all hp (by decide)) ho)

theorem Instruction.spelled_asm {i : Instruction} (hm : Spelled p i.mnemonic) :
    Spelled p i.asm := by
  apply spelled_withOperands hp hm
  intro s hs
  obtain ⟨op, -, rfl⟩ := List.mem_map.mp hs
  exact op.spelled_text hp

theorem Condition.spelled_symbol (c : Condition) : Spelled p c.symbol := by
  apply Spelled.of_all hp
  cases c <;> decide

theorem Operation.spelled_assignOperator? {o : Operation} {symbol : String}
    (ho : o.assignOperator? = some symbol) : Spelled p symbol := by
  apply Spelled.of_all hp
  cases o <;> cases ho <;> decide

namespace Scene

theorem spelled_assignment (o : Operation) {mnemonic : String} {operands : List String}
    (hm : Spelled p mnemonic) (ho : ∀ s ∈ operands, Spelled p s) :
    Spelled p (assignment o mnemonic operands) := by
  have hw : ∀ {s : String}, s.toList.all isPlain = true → Spelled p s := Spelled.of_all hp
  unfold assignment
  split
  next dst => exact (ho dst List.mem_cons_self).append (hw (by decide))
  next dst => exact (ho dst List.mem_cons_self).append (hw (by decide))
  next dst =>
    have hd := ho dst List.mem_cons_self
    exact (hd.append (hw (by decide))).append hd
  next dst =>
    have hd := ho dst List.mem_cons_self
    exact (hd.append (hw (by decide))).append hd
  next => exact hw (by decide)
  next dst src =>
    have hd := ho dst List.mem_cons_self
    have hs := ho src (List.mem_cons_of_mem dst List.mem_cons_self)
    exact (hd.append (hw (by decide))).append hs
  next dst src _ _ =>
    have hd := ho dst List.mem_cons_self
    have hs := ho src (List.mem_cons_of_mem dst List.mem_cons_self)
    split
    · exact hd.append (hw (by decide))
    · split
      next symbol hy =>
        have hy := Operation.spelled_assignOperator? hp hy
        exact (((hd.append (hw (by decide))).append hy).append (hw (by decide))).append hs
      next => exact Instruction.spelled_withOperands hp hm ho
  next => exact Instruction.spelled_withOperands hp hm ho

variable {scene : Scene} (hscene : scene.Spelling p)
include hscene

theorem spelled_operand (op : Operand) : Spelled p (scene.operand op) := by
  rw [operand]
  cases hn : (op.asLocal?.map Memory.displacement).bind scene.slots.nameOf? with
  | none => exact op.spelled_text hp
  | some name =>
    obtain ⟨d, -, hd⟩ := Option.bind_eq_some_iff.mp hn
    obtain ⟨slot, hs, rfl⟩ := Option.map_eq_some_iff.mp hd
    exact hscene.slots slot (List.mem_of_find?_eq_some hs)

theorem spelled_operands (i : Instruction) : ∀ s ∈ scene.operands i, Spelled p s := by
  intro s hs
  obtain ⟨op, -, rfl⟩ := List.mem_map.mp hs
  exact spelled_operand hp hscene op

theorem spelled_target (op : Operand) : ∀ span ∈ scene.target op, span.Spelled p := by
  rw [target]
  intro span hs
  split at hs
  · rw [List.mem_singleton.mp hs]
    exact spelled_operand hp hscene op
  next a _ =>
    obtain rfl | hs := List.mem_cons.mp hs
    · trivial
    · obtain ⟨name, hn, rfl⟩ := List.mem_map.mp hs
      have hn := hscene.symbols a name (Option.mem_toList.mp hn)
      exact (Spelled.append (Spelled.of_all hp (by decide)) hn).append
        (Spelled.of_all hp (by decide))

theorem spelled_statement {i : Instruction} (hi : i ∈ scene.stream.instructions) :
    ∀ span ∈ scene.statement i, span.Spelled p := by
  have hw : ∀ {s : String}, s.toList.all isPlain = true → (Span.text s).Spelled p :=
    Spelled.of_all hp
  intro span hs
  rw [statement] at hs
  split at hs
  · split at hs
    · rw [List.mem_singleton.mp hs]
      exact hw (by decide)
    next op _ _ =>
      obtain rfl | hs := List.mem_cons.mp hs
      · exact hw (by decide)
      · exact spelled_target hp hscene op span hs
  · split at hs
    next op _ _ _ =>
      obtain rfl | hs := List.mem_cons.mp hs
      · exact hw (by decide)
      · exact spelled_target hp hscene op span hs
    next =>
      rw [List.mem_singleton.mp hs]
      exact spelled_assignment hp _ (hscene.mnemonics i hi) (spelled_operands hp hscene i)

theorem spelled_tested {i : Instruction} (hi : i ∈ scene.stream.instructions) :
    (scene.tested i).Spelled p := by
  have ho := spelled_operands hp hscene i
  rw [tested]
  split
  next a b _ heq =>
    rw [heq] at ho
    exact ⟨ho a List.mem_cons_self, ho b (List.mem_cons_of_mem a List.mem_cons_self)⟩
  next a b _ heq =>
    rw [heq] at ho
    have ha := ho a List.mem_cons_self
    have hb := ho b (List.mem_cons_of_mem a List.mem_cons_self)
    split
    · intro span hs
      rw [List.mem_singleton.mp hs]
      exact ha
    · intro span hs
      rw [List.mem_singleton.mp hs]
      exact (ha.append (Spelled.of_all hp (by decide))).append hb
  next => exact spelled_statement hp hscene hi

theorem spelled_condition (tested : Option Nat) (c : Condition) :
    ∀ span ∈ scene.condition tested c, span.Spelled p := by
  have hw : ∀ {s : String}, s.toList.all isPlain = true → Spelled p s := Spelled.of_all hp
  have hc := c.spelled_symbol hp
  intro span hs
  rw [condition] at hs
  split at hs
  next =>
    rw [List.mem_singleton.mp hs]
    exact hc
  next i hi =>
    obtain ⟨h, -, hi⟩ := Option.bind_eq_some_iff.mp hi
    have ht := spelled_tested hp hscene (List.mem_of_getElem? hi)
    split at hs
    next a b heq _ =>
      rw [heq] at ht
      rw [List.mem_singleton.mp hs]
      exact (((ht.1.append (hw (by decide))).append hc).append (hw (by decide))).append ht.2
    next a b heq _ =>
      rw [heq] at ht
      rw [List.mem_singleton.mp hs]
      exact ((((hc.append (hw (by decide))).append ht.1).append (hw (by decide))).append
        ht.2).append (hw (by decide))
    next spans compound heq _ =>
      rw [heq] at ht
      obtain hs | hs := List.mem_append.mp hs
      · split at hs
        · simp only [List.mem_append, List.mem_singleton] at hs
          obtain (rfl | hs) | rfl := hs
          · exact hw (by decide)
          · exact ht span hs
          · exact hw (by decide)
        · exact ht span hs
      · rw [List.mem_singleton.mp hs]
        exact ((hw (by decide)).append hc).append (hw (by decide))
    next spans compound heq _ =>
      rw [heq] at ht
      simp only [List.mem_append, List.mem_singleton] at hs
      obtain (rfl | hs) | rfl := hs
      · exact hc.append (hw (by decide))
      · exact ht span hs
      · exact hw (by decide)

theorem spelled_declaration {slot : Slot} (hs : slot ∈ scene.slots.slots) :
    Spelled p (scene.declaration slot) := by
  have hw : ∀ {s : String}, s.toList.all isPlain = true → Spelled p s := Spelled.of_all hp
  have ht : Spelled p (slotType slot.size) := by
    rw [slotType]
    split
    · exact hw (by decide)
    · exact hw (by decide)
    · exact hw (by decide)
    · exact hw (by decide)
    · exact ((hw (by decide)).append (Spelled.repr hp _)).append (hw (by decide))
  have hf : Spelled p scene.arch.framePointer := by
    cases scene.arch with
    | x86_64 => exact hw (by decide)
    | x86 => exact hw (by decide)
  have hd : Spelled p (if slot.displacement < 0 then " - " else " + ") := by
    split
    · exact hw (by decide)
    · exact hw (by decide)
  exact ((((((ht.append (hw (by decide))).append (hscene.slots slot hs)).append
    (hw (by decide))).append hf).append hd).append (Spelled.literal hp _)).append (hw (by decide))

theorem spelled_words {content : Content} (hc : content.Spelled p scene) :
    ∀ span ∈ scene.words content, span.Spelled p := by
  have hw : ∀ {s : String}, s.toList.all isPlain = true → Spelled p s := Spelled.of_all hp
  intro span hs
  cases content with
  | statement i h =>
    simp only [words, Scene.content, List.mem_append, List.mem_cons, List.not_mem_nil,
      or_false] at hs
    obtain (rfl | rfl) | hs := hs
    · trivial
    · exact hw (by decide)
    · exact spelled_statement hp hscene hc span hs
  | remark text =>
    rw [List.mem_singleton.mp hs]
    exact Spelled.append (hw (by decide)) hc
  | echo i =>
    rw [List.mem_singleton.mp hs]
    exact (((hw (by decide)).append (Spelled.literal hp _)).append (hw (by decide))).append
      (Instruction.spelled_asm hp (hscene.mnemonics i hc))
  | jump target =>
    simp only [words, Scene.content, List.mem_cons, List.not_mem_nil, or_false] at hs
    obtain rfl | rfl := hs
    · exact hw (by decide)
    · trivial
  | ifGoto tested c target =>
    simp only [words, Scene.content, List.mem_append, List.mem_cons, List.not_mem_nil,
      or_false] at hs
    obtain (rfl | hs) | rfl | rfl := hs
    · exact hw (by decide)
    · exact spelled_condition hp hscene tested c span hs
    · exact hw (by decide)
    · trivial
  | andIf tested c =>
    simp only [words, Scene.content, List.mem_append, List.mem_singleton] at hs
    obtain rfl | hs := hs
    · exact hw (by decide)
    · exact spelled_condition hp hscene tested c span hs
  | openIf chained tested c =>
    simp only [words, List.mem_append, List.mem_singleton] at hs
    obtain (rfl | hs) | rfl := hs
    · cases chained with
      | true => exact hw (by decide)
      | false => exact hw (by decide)
    · exact spelled_condition hp hscene tested c span hs
    · exact hw (by decide)
  | openElse =>
    rw [List.mem_singleton.mp hs]
    exact hw (by decide)
  | openLoop infinite =>
    rw [List.mem_singleton.mp hs]
    cases infinite with
    | true => exact hw (by decide)
    | false => exact hw (by decide)
  | close => cases hs
  | openFunction name =>
    rw [List.mem_singleton.mp hs]
    exact (Spelled.append (hw (by decide)) hc).append (hw (by decide))
  | declaration slot =>
    rw [List.mem_singleton.mp hs]
    exact spelled_declaration hp hscene hc
  | blank => cases hs

end Scene

end

theorem Scene.spelled_content {p : Char → Prop} (hp : ∀ c, isPrintable c = true → p c)
    {scene : Scene} (hscene : scene.Spelling p) {content : Content}
    (hc : content.Spelled p scene) : ∀ span ∈ scene.content content, span.Spelled p := by
  have hw : ∀ {s : String}, s.toList.all isPrintable = true → Spelled p s := Spelled.of_all hp
  have hp : ∀ c, isPlain c = true → p c := fun c hc => hp c (isPrintable_of_isPlain hc)
  intro span hs
  cases content with
  | openIf chained tested c =>
    obtain hs | hs := List.mem_append.mp hs
    · exact spelled_words hp hscene hc span (List.mem_append_left _ hs)
    · rw [List.mem_singleton.mp hs]
      exact hw (by decide)
  | openElse =>
    rw [List.mem_singleton.mp hs]
    exact hw (by decide)
  | openLoop infinite =>
    rw [List.mem_singleton.mp hs]
    cases infinite with
    | true => exact hw (by decide)
    | false => exact hw (by decide)
  | close =>
    rw [List.mem_singleton.mp hs]
    exact hw (by decide)
  | openFunction name =>
    rw [List.mem_singleton.mp hs]
    exact (Spelled.append (hw (by decide)) hc).append (hw (by decide))
  | _ => exact spelled_words hp hscene hc span hs

end Pseudocode
