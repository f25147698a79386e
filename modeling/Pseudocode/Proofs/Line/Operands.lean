import Pseudocode.Proofs.Line.Text
import Pseudocode.Proofs.Recovery.Slots

namespace Pseudocode

def Occurs (u v : String) : Prop :=
  u.toList <:+: v.toList

namespace Occurs

theorem refl (u : String) : Occurs u u :=
  List.infix_refl _

theorem append_left {u v : String} (w : String) (h : Occurs u v) : Occurs u (v ++ w) := by
  rw [Occurs, String.toList_append]
  exact h.trans (List.prefix_append _ _).isInfix

theorem append_right {u w : String} (v : String) (h : Occurs u w) : Occurs u (v ++ w) := by
  rw [Occurs, String.toList_append]
  exact h.trans (List.suffix_append _ _).isInfix

theorem intercalate {u : String} {l : List String} (sep : String) (h : u ∈ l) :
    Occurs u (sep.intercalate l) := by
  induction l with
  | nil => cases h
  | cons v l ih =>
    cases l with
    | nil =>
      rw [List.mem_singleton.mp h, String.intercalate_singleton]
      exact refl v
    | cons w l =>
      rw [String.intercalate_cons_cons]
      obtain rfl | h := List.mem_cons.mp h
      · exact append_left _ (append_left _ (refl u))
      · exact append_right _ (ih h)

theorem join {u v : String} {l : List String} (h : Occurs u v) (hv : v ∈ l) :
    Occurs u (String.join l) := by
  rw [Occurs, String.toList_join]
  induction l with
  | nil => cases hv
  | cons w l ih =>
    rw [List.flatMap_cons]
    obtain rfl | hv := List.mem_cons.mp hv
    · exact h.trans (List.prefix_append _ _).isInfix
    · exact (ih hv).trans (List.suffix_append _ _).isInfix

end Occurs

def Span.Hold (spans : List Span) (word : String) : Prop :=
  ∃ text, .text text ∈ spans ∧ Occurs word text

namespace Span.Hold

theorem single {word text : String} (h : Occurs word text) : Hold [.text text] word :=
  ⟨text, List.mem_cons_self, h⟩

theorem append_left {spans : List Span} {word : String} (more : List Span) (h : Hold spans word) :
    Hold (spans ++ more) word := by
  obtain ⟨text, ht, ho⟩ := h
  exact ⟨text, List.mem_append_left more ht, ho⟩

theorem append_right {spans : List Span} {word : String} (more : List Span) (h : Hold spans word) :
    Hold (more ++ spans) word := by
  obtain ⟨text, ht, ho⟩ := h
  exact ⟨text, List.mem_append_right more ht, ho⟩

end Span.Hold

/-- The spans spell the operand out: they hold its text or the address that it goes to. -/
def Scene.Names (scene : Scene) (spans : List Span) (op : Operand) : Prop :=
  Span.Hold spans (scene.operand op) ∨ ∃ a, op.directTarget? = some a ∧ .address a ∈ spans

namespace Scene.Names

variable {scene : Scene} {spans : List Span} {op : Operand} (h : scene.Names spans op)
include h

theorem append_left (more : List Span) : scene.Names (spans ++ more) op := by
  obtain h | ⟨a, ha, hm⟩ := h
  · exact .inl (h.append_left more)
  · exact .inr ⟨a, ha, List.mem_append_left more hm⟩

theorem append_right (more : List Span) : scene.Names (more ++ spans) op := by
  obtain h | ⟨a, ha, hm⟩ := h
  · exact .inl (h.append_right more)
  · exact .inr ⟨a, ha, List.mem_append_right more hm⟩

end Scene.Names

def Tested.Names (scene : Scene) (op : Operand) : Tested → Prop
  | .pair a b => scene.operand op ∈ [a, b]
  | .value spans _ => scene.Names spans op

theorem Operand.eq_memory_of_asLocal? {op : Operand} {m : Memory} (h : op.asLocal? = some m) :
    op = .memory m := by
  cases op with
  | memory k =>
    have hm := (Option.filter_eq_some_iff.mp h).1
    rw [Option.some.inj hm]
  | register r => cases h
  | immediate imm => cases h
  | relative offset target => cases h

theorem Instruction.isSelfTest_iff (i : Instruction) :
    i.isSelfTest = true ↔
      i.operation = .test ∧ ∃ r, i.operands = [.register r, .register r] := by
  rw [isSelfTest, Bool.and_eq_true, beq_iff_eq]
  apply and_congr_right
  intro _
  split
  next a b heq =>
    rw [beq_iff_eq, heq]
    constructor
    · rintro rfl
      exact ⟨a, rfl⟩
    · rintro ⟨r, hr⟩
      cases hr
      rfl
  next h =>
    constructor
    · intro hf
      cases hf
    · rintro ⟨r, hr⟩
      exact absurd hr (h r r)

/-- The operands that the words of an instruction spell out. -/
def Instruction.spelledOperands (i : Instruction) : List Operand :=
  if i.isCall = true ∨ i.operation = .jump then i.operands.take 1
  else if i.operation = .ret then []
  else i.operands

theorem Instruction.spelledOperands_subset (i : Instruction) :
    i.spelledOperands ⊆ i.operands := by
  rw [spelledOperands]
  split
  · exact List.take_subset 1 i.operands
  · split
    · exact List.nil_subset _
    · exact List.Subset.refl _

theorem Instruction.occurs_withOperands {word : String} {operands : List String}
    (mnemonic : String) (h : word ∈ operands) :
    Occurs word (withOperands mnemonic operands) := by
  unfold withOperands
  split
  · cases h
  · exact Occurs.append_right _ (Occurs.intercalate _ h)

namespace Scene

theorem occurs_assignment {operation : Operation} (mnemonic : String) {operands : List String}
    {word : String} (hr : operation ≠ .ret) (h : word ∈ operands) :
    Occurs word (assignment operation mnemonic operands) := by
  have hpair : ∀ {dst src : String} (sep : String), word ∈ [dst, src] →
      Occurs word (dst ++ sep ++ src) := by
    intro dst src sep hm
    obtain rfl | hm := List.mem_cons.mp hm
    · exact Occurs.append_left _ (Occurs.append_left _ (Occurs.refl word))
    · rw [List.mem_singleton.mp hm]
      exact Occurs.append_right _ (Occurs.refl src)
  unfold assignment
  split
  next dst =>
    rw [List.mem_singleton.mp h]
    exact Occurs.append_left _ (Occurs.refl dst)
  next dst =>
    rw [List.mem_singleton.mp h]
    exact Occurs.append_left _ (Occurs.refl dst)
  next dst =>
    rw [List.mem_singleton.mp h]
    exact Occurs.append_right _ (Occurs.refl dst)
  next dst =>
    rw [List.mem_singleton.mp h]
    exact Occurs.append_right _ (Occurs.refl dst)
  next => exact absurd rfl hr
  next dst src => exact hpair " = &" h
  next dst src _ _ =>
    split
    next hx =>
      -- Both operands read the same, so the one that is left stands for both.
      obtain ⟨-, rfl⟩ := hx
      have hd : word = dst := by simpa using h
      rw [hd]
      exact Occurs.append_left _ (Occurs.refl dst)
    next =>
      split
      next symbol _ =>
        have hs := hpair (" " ++ symbol ++ " ") h
        simpa only [String.append_assoc] using hs
      next => exact Instruction.occurs_withOperands mnemonic h
  next => exact Instruction.occurs_withOperands mnemonic h

variable (scene : Scene) {i : Instruction} {op : Operand}

theorem names_target (op : Operand) : scene.Names (scene.target op) op := by
  rw [target]
  cases h : op.directTarget? with
  | none => exact .inl (Span.Hold.single (Occurs.refl _))
  | some a => exact .inr ⟨a, h, List.mem_cons_self⟩

theorem statement_eq_target {first : Operand} {rest : List Operand}
    (hg : i.isCall = true ∨ i.operation = .jump) (ho : i.operands = first :: rest) :
    ∃ word, scene.statement i = .text word :: scene.target first := by
  by_cases hc : i.isCall = true
  · exact ⟨"call ", by rw [statement, if_pos hc, ho]⟩
  · have hj := hg.resolve_left hc
    exact ⟨"jmp ", by rw [statement, if_neg hc, hj, ho]⟩

theorem statement_eq_assignment (hg : ¬ (i.isCall = true ∨ i.operation = .jump)) :
    scene.statement i = [.text (assignment i.operation i.mnemonic (scene.operands i))] := by
  rw [statement, if_neg fun hc => hg (.inl hc)]
  split
  next hj _ => exact absurd (.inr hj) hg
  next => rfl

theorem names_statement (ho : op ∈ i.spelledOperands) : scene.Names (scene.statement i) op := by
  rw [Instruction.spelledOperands] at ho
  by_cases hg : i.isCall = true ∨ i.operation = .jump
  · rw [if_pos hg] at ho
    cases hops : i.operands with
    | nil => simp [hops] at ho
    | cons first rest =>
      have he : op = first := by simpa [hops] using ho
      obtain ⟨word, hw⟩ := scene.statement_eq_target hg hops
      rw [hw, ← he]
      exact (scene.names_target op).append_right [.text word]
  · rw [if_neg hg] at ho
    by_cases hr : i.operation = .ret
    · simp [hr] at ho
    · rw [if_neg hr] at ho
      rw [scene.statement_eq_assignment hg]
      apply Or.inl
      apply Span.Hold.single
      apply occurs_assignment i.mnemonic hr
      exact List.mem_map_of_mem ho

theorem names_tested (ho : op ∈ i.spelledOperands) : (scene.tested i).Names scene op := by
  have hm := i.spelledOperands_subset ho
  have hw : scene.operand op ∈ scene.operands i := List.mem_map_of_mem hm
  rw [tested]
  split
  next a b _ heq =>
    rw [heq] at hw
    exact hw
  next a b _ heq =>
    rw [heq] at hw
    split
    next hself =>
      -- Both operands are the same register, so the first one stands for both.
      obtain ⟨-, r, hr⟩ := i.isSelfTest_iff.mp hself
      have hop : op = .register r := by simpa [hr] using hm
      have ha : scene.operand (.register r) = a := by
        rw [operands, hr] at heq
        exact (List.cons.inj heq).1
      rw [hop, ← ha]
      exact .inl (Span.Hold.single (Occurs.refl _))
    next =>
      apply Or.inl
      apply Span.Hold.single
      obtain hw | hw := List.mem_cons.mp hw
      · rw [hw]
        exact Occurs.append_left _ (Occurs.append_left _ (Occurs.refl a))
      · rw [List.mem_singleton.mp hw]
        exact Occurs.append_right _ (Occurs.refl b)
  next => exact scene.names_statement ho

theorem names_condition {tested : Option Nat} (c : Condition)
    (hi : tested.bind scene.stream.get? = some i) (ho : op ∈ i.spelledOperands) :
    scene.Names (scene.condition tested c) op := by
  have ht := scene.names_tested ho
  rw [condition, hi]
  dsimp only
  split
  next a b heq _ =>
    rw [heq] at ht
    apply Or.inl
    apply Span.Hold.single
    obtain ha | hb := List.mem_cons.mp ht
    · rw [ha]
      iterate 4 apply Occurs.append_left
      exact Occurs.refl a
    · rw [List.mem_singleton.mp hb]
      exact Occurs.append_right _ (Occurs.refl b)
  next a b heq _ =>
    rw [heq] at ht
    apply Or.inl
    apply Span.Hold.single
    apply Occurs.append_left
    obtain ha | hb := List.mem_cons.mp ht
    · rw [ha]
      iterate 2 apply Occurs.append_left
      exact Occurs.append_right _ (Occurs.refl a)
    · rw [List.mem_singleton.mp hb]
      exact Occurs.append_right _ (Occurs.refl b)
  next spans compound heq _ =>
    rw [heq] at ht
    have hn : scene.Names spans op := ht
    apply Names.append_left
    split
    · exact (hn.append_right _).append_left _
    · exact hn
  next spans compound heq _ =>
    rw [heq] at ht
    have hn : scene.Names spans op := ht
    exact (hn.append_right _).append_left _

end Scene

/-- The instruction that a line shows, as a statement or as the test of a condition. -/
def Content.instruction? (s : Stream) : Content → Option Instruction
  | .statement i _ => some i
  | .ifGoto tested _ _ | .andIf tested _ | .openIf _ tested _ => tested.bind s.get?
  | _ => none

theorem Content.statement_or_shown? {s : Stream} {content : Content} {i : Instruction}
    (hi : content.instruction? s = some i) :
    (∃ h, content = .statement i h) ∨ ∃ h, content.shown? = some h ∧ s.get? h = some i := by
  cases content with
  | statement j h =>
    have he : j = i := Option.some.inj hi
    exact .inl ⟨h, by rw [he]⟩
  | ifGoto tested c target => exact .inr (Option.bind_eq_some_iff.mp hi)
  | andIf tested c => exact .inr (Option.bind_eq_some_iff.mp hi)
  | openIf chained tested c => exact .inr (Option.bind_eq_some_iff.mp hi)
  | _ => cases hi

namespace Scene

variable (scene : Scene) {i : Instruction} {op : Operand}

theorem names_content {content : Content} (hi : content.instruction? scene.stream = some i)
    (ho : op ∈ i.spelledOperands) : scene.Names (scene.content content) op := by
  cases content with
  | statement j h =>
    have he : j = i := Option.some.inj hi
    subst he
    exact (scene.names_statement ho).append_right _
  | ifGoto tested c target => exact ((scene.names_condition c hi ho).append_right _).append_left _
  | andIf tested c => exact (scene.names_condition c hi ho).append_right _
  | openIf chained tested c =>
    exact ((scene.names_condition c hi ho).append_right _).append_left _
  | _ => cases hi

end Scene

/-- Operands change only where they are local variables, and these keep their displacement. -/
def Operand.IsRespelling (f : Operand → Operand) : Prop :=
  ∀ op, f op = op ∨ ∃ m k, op.asLocal? = some m ∧ (f op).asLocal? = some k ∧
    k.displacement = m.displacement

def Instruction.respell (i : Instruction) (f : Operand → Operand) : Instruction :=
  { i with operands := i.operands.map f }

namespace Operand.IsRespelling

variable {f : Operand → Operand} (hf : IsRespelling f) (op : Operand)
include hf

theorem cases : f op = op ∨ ∃ m k, op = .memory m ∧ f op = .memory k := by
  obtain h | ⟨m, k, hm, hk, -⟩ := hf op
  · exact .inl h
  · exact .inr ⟨m, k, eq_memory_of_asLocal? hm, eq_memory_of_asLocal? hk⟩

theorem directTarget? : (f op).directTarget? = op.directTarget? := by
  obtain h | ⟨m, k, rfl, hk⟩ := hf.cases op
  · rw [h]
  · rw [hk]
    rfl

theorem eq_register_iff (r : Register) : f op = .register r ↔ op = .register r := by
  obtain h | ⟨m, k, rfl, hk⟩ := hf.cases op
  · rw [h]
  · simp [hk]

end Operand.IsRespelling

theorem Instruction.isSelfTest_respell {f : Operand → Operand} (hf : Operand.IsRespelling f)
    (i : Instruction) : (i.respell f).isSelfTest = i.isSelfTest := by
  rw [Bool.eq_iff_iff, isSelfTest_iff, isSelfTest_iff]
  apply and_congr_right
  intro _
  apply exists_congr
  intro r
  simp only [respell, List.map_eq_cons_iff, List.map_eq_nil_iff, hf.eq_register_iff]
  constructor
  · rintro ⟨a, l, hl, rfl, b, l', rfl, rfl, rfl⟩
    exact hl
  · intro h
    exact ⟨_, _, h, rfl, _, _, rfl, rfl, rfl⟩

namespace Scene

variable (scene : Scene) {f : Operand → Operand} (hf : Operand.IsRespelling f)
include hf

theorem operand_respell (op : Operand)
    (hc : ∀ m, op.asLocal? = some m → scene.slots.contains m.displacement = true) :
    scene.operand (f op) = scene.operand op := by
  obtain h | ⟨m, k, hm, hk, hd⟩ := hf op
  · rw [h]
  · obtain ⟨slot, -, -, hn⟩ := SlotTable.exists_nameOf? scene.slots m.displacement (hc m hm)
    simp only [operand, hm, hk, Option.map_some, Option.bind_some, hd, hn, Option.getD_some]

variable (i : Instruction)
  (hc : ∀ op ∈ i.operands, ∀ m, op.asLocal? = some m →
    scene.slots.contains m.displacement = true)
include hc

theorem operands_respell : scene.operands (i.respell f) = scene.operands i := by
  simp only [operands, Instruction.respell, List.map_map]
  apply List.map_congr_left
  intro op ho
  exact scene.operand_respell hf op (hc op ho)

theorem statement_respell : scene.statement (i.respell f) = scene.statement i := by
  have ho := scene.operands_respell hf i hc
  have ht : ∀ op ∈ i.operands, scene.target (f op) = scene.target op := by
    intro op hm
    rw [target, target, hf.directTarget? op, scene.operand_respell hf op (hc op hm)]
  have hcall : (i.respell f).isCall = i.isCall := rfl
  rw [statement, statement, ho, hcall]
  simp only [Instruction.respell]
  cases hops : i.operands with
  | nil => rfl
  | cons op rest =>
    have h := ht op (by simp [hops])
    cases i.operation <;> simp only [List.map_cons, h]

theorem tested_respell : scene.tested (i.respell f) = scene.tested i := by
  rw [tested, tested, scene.operands_respell hf i hc, scene.statement_respell hf i hc,
    Instruction.isSelfTest_respell hf]
  rfl

end Scene

theorem Scene.Names.hold {scene : Scene} {spans : List Span} {op : Operand} {m : Memory}
    (h : scene.Names spans op) (hm : op.asLocal? = some m) :
    Span.Hold spans (scene.operand op) := by
  obtain h | ⟨a, ha, -⟩ := h
  · exact h
  · rw [Operand.eq_memory_of_asLocal? hm] at ha
    cases ha

namespace Line

variable (scene : Scene) (style : Style) (line : Line)

theorem occurs_span {span : Span} (h : span ∈ scene.content line.content) :
    Occurs (span.render style.colors) (line.render scene style) := by
  have hs : span.render style.colors ∈
      (scene.content line.content).map (Span.render style.colors) := List.mem_map_of_mem h
  exact Occurs.append_left _ (Occurs.append_right _ ((Occurs.refl _).join hs))

theorem occurs_render {word : String} (h : Span.Hold (scene.content line.content) word) :
    Occurs word (line.render scene style) := by
  obtain ⟨text, ht, ho⟩ := h
  exact ho.trans (line.occurs_span scene style ht)

end Line

end Pseudocode
