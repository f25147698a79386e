import Pseudocode.Proofs.Coverage
import Pseudocode.Proofs.Line.Operands
import Pseudocode.Proofs.Recovery.Accesses
import Pseudocode.Proofs.Recovery.Canary

namespace Pseudocode

open Line Reference

mutual

theorem Node.meet_of_handles {s : Stream} {fused : Marks} {h : Nat} : ∀ (n : Node) (d : Nat),
    h ∈ handles (n.lines s fused d .plain) → Meet n.references h
  | .seq items, d, hh => Tree.meet_of_handles items d hh
  | .ifGoto test target, d, hh => by
    apply (meet_test test h).mpr
    simpa [Node.lines, handles_cons, Content.shown?] using hh
  | .andIf test, d, hh => by
    apply (meet_test test h).mpr
    simpa [Node.lines, handles_cons, Content.shown?] using hh
  | .ifElse test body otherwise, d, hh => by
    have hb : h ∈ handles (Tree.lines s fused d body) → Meet (Tree.references body) h :=
      Tree.meet_of_handles body d
    have ho : h ∈ handles (Tree.lines s fused d otherwise) → Meet (Tree.references otherwise) h :=
      Tree.meet_of_handles otherwise d
    let c : Conditional := ⟨test, body, otherwise⟩
    change h ∈ handles (c.toNode.lines s fused d .plain) at hh
    cases hl : c.leading? s with
    | none =>
      rw [Conditional.handles_lines_of_leading?_eq_none hl] at hh
      simp only [List.mem_append, Option.mem_toList] at hh
      rw [Node.references, meet_append, meet_append, meet_test]
      exact hh.imp (Or.imp_right hb) ho
    | some p =>
      obtain ⟨k, nested⟩ := p
      rw [Conditional.handles_lines_of_leading?_eq_some hl] at hh
      simp only [List.mem_append, Option.mem_toList] at hh
      obtain hh | hh | hh := hh
      · rw [Node.references, meet_append, meet_append, meet_test]
        exact .inl (hh.imp_right hb)
      · -- The comparison in front of a chained conditional is that of a block.
        obtain ⟨⟨b, hr, hk⟩, -⟩ := Conditional.references_of_leading? hl
        split at hh
        · rw [List.mem_singleton.mp hh]
          exact .inl (mem_covered.mpr ⟨b, hr, hk⟩)
        · cases hh
      · have hm : h ∈ handles (Tree.lines s fused d otherwise) := by
          rw [Conditional.handles_otherwise_of_leading hl]
          exact List.mem_append_right _ hh
        rw [Node.references, meet_append]
        exact .inr (ho hm)
  | .jump target, d, hh => by cases hh
  | .loop body infinite epilog, d, hh => by
    have hd := Tree.handles_lines_depth s fused (d + 1) d body
    simp only [Node.lines, handles_append, handles_cons, handles_nil, Content.shown?,
      Option.toList_none, List.nil_append, List.append_nil, hd, List.mem_append] at hh
    rw [Node.references, meet_append]
    exact hh.imp (Tree.meet_of_handles body d) (meet_of_handles_epilog epilog d)
  | .comment text, d, hh => by cases hh

theorem Tree.meet_of_handles {s : Stream} {fused : Marks} {h : Nat} :
    ∀ (items : List Item) (d : Nat), h ∈ handles (Tree.lines s fused d items) →
      Meet (Tree.references items) h
  | [], _, hh => by cases hh
  | .block b :: items, d, hh => by
    rw [Tree.lines, Item.lines, handles_append, handles_ofBlock, List.mem_append] at hh
    rw [Tree.references, Item.references, meet_append]
    refine hh.imp (fun hb => ?_) (Tree.meet_of_handles items d)
    exact .inl (by simpa using (List.mem_filter.mp hb).1)
  | .node n :: items, d, hh => by
    rw [Tree.lines, Item.lines, handles_append, List.mem_append] at hh
    rw [Tree.references, Item.references, meet_append]
    exact hh.imp (Node.meet_of_handles n d) (Tree.meet_of_handles items d)

theorem meet_of_handles_epilog {s : Stream} {fused : Marks} {h : Nat} :
    ∀ (epilog : Option Node) (d : Nat), h ∈ handles (epilogLines s fused d epilog) →
      Meet (epilogReferences epilog) h
  | none, _, hh => by cases hh
  | some n, d, hh => Node.meet_of_handles n d hh

end

/-- The type and the name of a slot, and its place in the frame. -/
def declarationText (arch : Arch) (slot : Slot) : String :=
  Scene.slotType slot.size ++ " " ++ slot.name ++ ";  // [" ++ arch.framePointer ++
    (if slot.displacement < 0 then " - " else " + ") ++
    Hex.literal slot.displacement.toInt.natAbs ++ "]"

/-- The first line of a function and the declarations of its slots. -/
def functionHead (style : Style) (arch : Arch) (name : String) (slots : List Slot) : String :=
  style.line 0 ("function " ++ name ++ " \x7b") ++
    String.join (slots.map fun slot => style.line 1 (declarationText arch slot))

theorem Line.render_declaration (scene : Scene) (style : Style) (d : Nat) (slot : Slot) :
    Line.render scene style ⟨d, .declaration slot⟩ =
      style.line d (declarationText scene.arch slot) := by
  rw [render_eq_line]
  simp [Scene.wording, Scene.content, Span.render, Scene.declaration, declarationText]

theorem Line.renderAll_declarations (scene : Scene) (style : Style) (slots : List Slot) :
    renderAll scene style (slots.map fun slot => ⟨1, .declaration slot⟩) =
      String.join (slots.map fun slot => style.line 1 (declarationText scene.arch slot)) := by
  have hs : style.select (slots.map fun slot => ⟨1, .declaration slot⟩) =
      slots.map fun slot => ⟨1, .declaration slot⟩ := by
    rw [Style.select]
    split
    · rfl
    · simp [List.filter_eq_self, Content.isComment]
  have hr : render scene style ∘ (fun slot => ⟨1, .declaration slot⟩) =
      fun slot => style.line 1 (declarationText scene.arch slot) :=
    funext (render_declaration scene style 1)
  rw [renderAll, hs, List.map_map, hr]

namespace Config

/-- The slots that the search brings in, before the canary gets its name. -/
def named (c : Config) (s : Stream) (t : Tree) : SlotTable :=
  if c.runs .stackSlots then (SlotTable.empty c.stem).walk s (Tree.references t)
  else .empty c.stem

theorem slots_canary_decompile (c : Config) (symbols : Symbols) (s : Stream) (t : Tree) :
    ((c.decompile symbols s t).findings.slots, (c.decompile symbols s t).canary) =
      if c.runs .canaryGuard then
        Canary.recover c.canary symbols s (c.named s (c.decompile symbols s t).tree)
      else (c.named s (c.decompile symbols s t).tree, none) := by
  let fused := if c.runs .conditionFusion then (Findings.start c.stem).fuse s t
    else Findings.start c.stem
  let searched := if c.runs .stackSlots then
    fused.recoverSlots s (c.decompile symbols s t).tree else fused
  have hf : fused.slots = .empty c.stem := by
    cases h : c.runs .conditionFusion <;> simp only [fused, h] <;> rfl
  have hs : searched.slots = c.named s (c.decompile symbols s t).tree := by
    cases h : c.runs .stackSlots with
    | false => simp only [searched, named, h, Bool.false_eq_true, if_false, hf]
    | true =>
      simp only [searched, named, h, if_true, Findings.recoverSlots, hf]
      rfl
  rw [← hs]
  cases h : c.runs .canaryGuard <;> simp only [decompile, h] <;> rfl

theorem contains_slots_decompile (c : Config) (symbols : Symbols) (s : Stream) (t : Tree)
    (d : Int64) :
    (c.decompile symbols s t).findings.slots.contains d =
      (c.named s (c.decompile symbols s t).tree).contains d := by
  have h := congrArg Prod.fst (slots_canary_decompile c symbols s t)
  dsimp only at h
  rw [h]
  split
  · exact Canary.contains_recover c.canary symbols s _ d
  · rfl

theorem contains_slots_iff {c : Config} (hs : c.runs .stackSlots = true) (symbols : Symbols)
    (s : Stream) (t : Tree) (d : Int64) :
    (c.decompile symbols s t).findings.slots.contains d = true ↔
      ∃ h i, Meet (Tree.references (c.decompile symbols s t).tree) h ∧ s.get? h = some i ∧
        i.Accesses d := by
  rw [contains_slots_decompile, named, if_pos hs, SlotTable.contains_walk,
    SlotTable.not_contains_empty]
  simp

section

variable (c : Config) (image : Image) (name : String) (s : Stream) (r : Recovered)

theorem declaration_mem_lines (slot : Slot) :
    ⟨1, .declaration slot⟩ ∈ c.lines image name s r ↔ slot ∈ r.findings.slots.slots := by
  rw [lines, Style.mem_select]
  constructor
  · rintro ⟨hm, -⟩
    simp only [ofFunction, List.mem_append, List.mem_singleton] at hm
    obtain ((hm | hm) | hm) | hm := hm
    · cases hm
    · split at hm
      · cases hm
      · obtain hm | hm := List.mem_append.mp hm
        · obtain ⟨other, ho, he⟩ := List.mem_map.mp hm
          cases he
          exact ho
        · cases List.mem_singleton.mp hm
    · exact (Tree.drawn_lines r.tree 1 (List.Subset.refl _) hm).elim
    · cases hm
  · intro hm
    refine ⟨?_, .inr rfl⟩
    have he : ¬ r.findings.slots.isEmpty = true := by
      rw [SlotTable.isEmpty, List.isEmpty_iff]
      exact List.ne_nil_of_mem hm
    rw [ofFunction, if_neg he]
    simp [hm]

theorem exists_render_eq_functionHead : ∃ rest, c.render image name s r =
    functionHead (c.style image.edges s r.tree) image.arch name r.findings.slots.slots ++ rest := by
  let scene := r.scene image s
  let style := c.style image.edges s r.tree
  have hd := renderAll_declarations scene style r.findings.slots.slots
  have ho : renderAll scene style [⟨0, .openFunction name⟩] =
      style.line 0 ("function " ++ name ++ " \x7b") := by
    rw [renderAll_singleton scene style 0 rfl]
    simp [Scene.wording, Scene.content, Span.render]
  have hr : c.render image name s r =
      renderAll scene style (ofFunction s r.findings name r.tree) := rfl
  have hh : functionHead style image.arch name r.findings.slots.slots =
      style.line 0 ("function " ++ name ++ " \x7b") ++
        String.join (r.findings.slots.slots.map fun slot =>
          style.line 1 (declarationText image.arch slot)) := rfl
  rw [hr, hh, ofFunction, ← ho]
  split
  next he =>
    have hn : r.findings.slots.slots = [] := List.isEmpty_iff.mp he
    rw [hn, List.map_nil, String.join_nil, String.append_empty, List.append_nil,
      List.append_assoc, renderAll_append]
    exact ⟨_, rfl⟩
  next =>
    rw [renderAll_append, renderAll_append, renderAll_append, renderAll_append, hd]
    simp only [String.append_assoc]
    exact ⟨_, rfl⟩

theorem meet_of_instruction? {line : Line} {i : Instruction} (hl : line ∈ c.lines image name s r)
    (hi : line.content.instruction? s = some i) :
    ∃ h, Meet (Tree.references r.tree) h ∧ s.get? h = some i := by
  have hm : ∀ h, line.content.shown? = some h → Meet (Tree.references r.tree) h := by
    intro h hs
    have hh : h ∈ handles (c.lines image name s r) := List.mem_filterMap.mpr ⟨line, hl, hs⟩
    rw [handles_lines] at hh
    exact Tree.meet_of_handles r.tree 1 hh
  obtain ⟨h, hc⟩ | ⟨h, hs, hg⟩ := Content.statement_or_shown? hi
  · exact ⟨h, hm h (by rw [hc]; rfl), get?_of_statement hl hc⟩
  · exact ⟨h, hm h hs, hg⟩

end

end Config

theorem Scene.operand_of_contains (scene : Scene) {op : Operand} {m : Memory}
    (hm : op.asLocal? = some m) (hc : scene.slots.contains m.displacement = true) :
    ∃ slot ∈ scene.slots.slots, slot.displacement = m.displacement ∧
      scene.operand op = slot.name := by
  obtain ⟨slot, hs, hd, hn⟩ := SlotTable.exists_nameOf? scene.slots m.displacement hc
  refine ⟨slot, hs, hd, ?_⟩
  rw [operand, hm, Option.map_some, Option.bind_some, hn, Option.getD_some]

/-- How a line presents the local variables of an instruction that it shows. -/
structure Line.Presents (lines : List Line) (scene : Scene) (style : Style) (line : Line)
    (i : Instruction) : Prop where
  named : ∀ op ∈ i.operands, ∀ m, op.asLocal? = some m →
    ∃ slot, ⟨1, .declaration slot⟩ ∈ lines ∧ slot.displacement = m.displacement ∧
      scene.operand op = slot.name ∧
      (op ∈ i.spelledOperands → Occurs slot.name (line.render scene style))
  /-- The words would be the same for any other text of these operands. -/
  respelled : ∀ f, Operand.IsRespelling f →
    scene.statement (i.respell f) = scene.statement i ∧
      scene.tested (i.respell f) = scene.tested i

namespace Config

/-- If the search for slots runs, every instruction that a line states or tests is presented with
the names of declared slots for its local variables. The header of the text declares these slots,
each with its type, its name and its displacement, and there is one exactly where an instruction of
a block or an attached comparison accesses a local variable. -/
theorem presents_and_declares (c : Config) (image : Image) (symbols : Symbols) (name : String)
    (s : Stream) (t : Tree) (hs : c.runs .stackSlots = true) :
    c.render image name s (c.decompile symbols s t) =
      String.join ((c.lines image name s (c.decompile symbols s t)).map
        (Line.render ((c.decompile symbols s t).scene image s)
          (c.style image.edges s (c.decompile symbols s t).tree))) ∧
    (∀ line ∈ c.lines image name s (c.decompile symbols s t), ∀ i,
      line.content.instruction? s = some i →
        line.Presents (c.lines image name s (c.decompile symbols s t))
          ((c.decompile symbols s t).scene image s)
          (c.style image.edges s (c.decompile symbols s t).tree) i) ∧
    (∃ rest, c.render image name s (c.decompile symbols s t) =
      functionHead (c.style image.edges s (c.decompile symbols s t).tree) image.arch name
        (c.decompile symbols s t).findings.slots.slots ++ rest) ∧
    (∀ slot, ⟨1, .declaration slot⟩ ∈ c.lines image name s (c.decompile symbols s t) ↔
      slot ∈ (c.decompile symbols s t).findings.slots.slots) ∧
    ∀ d, (∃ slot, ⟨1, .declaration slot⟩ ∈ c.lines image name s (c.decompile symbols s t) ∧
        slot.displacement = d) ↔
      ∃ h i, (h ∈ (c.decompile symbols s t).tree.covered ∨
          h ∈ (c.decompile symbols s t).tree.attached) ∧ s.get? h = some i ∧
        ∃ op ∈ i.operands, ∃ m, op.asLocal? = some m ∧ m.displacement = d := by
  refine ⟨render_eq_join .., ?_, exists_render_eq_functionHead .., ?_, ?_⟩
  · intro line hl i hi
    obtain ⟨h, hh, hg⟩ := meet_of_instruction? c image name s _ hl hi
    have hc : ∀ op ∈ i.operands, ∀ m, op.asLocal? = some m →
        (c.decompile symbols s t).findings.slots.contains m.displacement = true := by
      intro op ho m hm
      exact (contains_slots_iff hs symbols s t m.displacement).mpr
        ⟨h, i, hh, hg, op, ho, m, hm, rfl⟩
    constructor
    · intro op ho m hm
      obtain ⟨slot, hmem, hd, hn⟩ :=
        Scene.operand_of_contains ((c.decompile symbols s t).scene image s) hm (hc op ho m hm)
      refine ⟨slot, (declaration_mem_lines c image name s _ slot).mpr hmem, hd, hn, ?_⟩
      intro hsp
      rw [← hn]
      exact Line.occurs_render _ _ line ((Scene.names_content _ hi hsp).hold hm)
    · intro f hf
      exact ⟨Scene.statement_respell _ hf i hc, Scene.tested_respell _ hf i hc⟩
  · exact declaration_mem_lines c image name s _
  · intro d
    simp only [declaration_mem_lines]
    rw [← SlotTable.contains_iff]
    exact contains_slots_iff hs symbols s t d

def guarded : Stream :=
  let slot d := .memory (.offset (.general .x86_64 5 64) d 8)
  ⟨[⟨0x1000, 4, [], .move, "mov", [slot (-8), .register (.general .x86_64 0 64)], .sequential⟩,
    ⟨0x1004, 4, [], .compare, "cmp", [slot (-16), .immediate (.signed 1 32)], .sequential⟩,
    ⟨0x1008, 2, [], .conditionalJump, "jle", [], .sequential⟩,
    ⟨0x100a, 5, [], .call, "call", [.immediate (.signed 0x2000 64)], .sequential⟩], rfl⟩

def guardedTree : Tree :=
  [.block ⟨0, 2⟩, .node (.ifGoto ⟨2, .lessOrEqual, none⟩ 0x100f), .block ⟨3, 4⟩]

def guardedImage : Image := ⟨.x86_64, .ofList [("__stack_chk_fail@plt", 0x2000)], .empty⟩

theorem presents_and_declares_guarded :
    default.runs .stackSlots = true ∧
    (∃ slot, ⟨1, .declaration slot⟩ ∈ default.lines guardedImage "f" guarded
        (default.decompile guardedImage.symbols guarded guardedTree) ∧
      slot.displacement = -16 ∧
      Occurs slot.name (Line.render
        ((default.decompile guardedImage.symbols guarded guardedTree).scene guardedImage guarded)
        (default.style guardedImage.edges guarded guardedTree)
        ⟨1, .ifGoto (some 1) .lessOrEqual 0x100f⟩)) ∧
    ∃ rest, default.render guardedImage "f" guarded
        (default.decompile guardedImage.symbols guarded guardedTree) =
      "function f \x7b\n    int64_t var1_canary;  // [rbp - 0x8]\n" ++
        "    int64_t var2;  // [rbp - 0x10]\n" ++ rest := by
  have hs : default.runs .stackSlots = true := rfl
  have hl : ⟨1, .ifGoto (some 1) .lessOrEqual 0x100f⟩ ∈ default.lines guardedImage "f" guarded
      (default.decompile guardedImage.symbols guarded guardedTree) :=
    List.mem_of_getElem? (i := 7) rfl
  obtain ⟨-, hp, ⟨rest, hh⟩, -⟩ := presents_and_declares default guardedImage guardedImage.symbols
    "f" guarded guardedTree hs
  obtain ⟨slot, hd, hm, -, hn⟩ := (hp _ hl _ rfl).named _ List.mem_cons_self _ rfl
  refine ⟨hs, ⟨slot, hd, hm, hn List.mem_cons_self⟩, rest, hh.trans ?_⟩
  apply congrArg (· ++ rest)
  decide

/-- The configurations agree on all that recovery depends on, apart from fusion. -/
structure AgreeButFusion (c d : Config) : Prop where
  stem : c.stem = d.stem
  canary : c.canary = d.canary
  passes : ∀ pass, pass ≠ .conditionFusion → c.runs pass = d.runs pass

theorem named_decompile (c : Config) (symbols : Symbols) (s : Stream) (t : Tree)
    (ha : t.attached = []) : c.named s (c.decompile symbols s t).tree = c.named s t := by
  rw [tree_decompile]
  split
  · have hw := Tree.walk_fuseAfter s t none (SlotTable.empty c.stem) ha (by simp)
    rw [named, named, Tree.fuse, hw]
  · rfl

theorem named_congr {c d : Config} (h : c.AgreeButFusion d) (s : Stream) (t : Tree) :
    c.named s t = d.named s t := by
  rw [named, named, h.stem, h.passes .stackSlots (by decide)]

theorem runs_enable (c : Config) (pass other : Pass) :
    (c.enable pass).runs other = if other = pass then true else c.runs other := by
  by_cases h : other = pass <;> simp [enable, runs, h]

theorem runs_disable (c : Config) (pass other : Pass) :
    (c.disable pass).runs other = if other = pass then false else c.runs other := by
  by_cases h : other = pass <;> simp [disable, runs, h]

/-- For a tree without comparisons, slots and canary are the same for any two configurations that
agree apart from fusion, such as one with fusion enabled and one with it disabled. -/
theorem slots_eq_of_agreeButFusion (symbols : Symbols) (s : Stream) (t : Tree)
    (ha : t.attached = []) :
    (∀ c d : Config, c.AgreeButFusion d →
      (c.decompile symbols s t).findings.slots = (d.decompile symbols s t).findings.slots ∧
      (c.decompile symbols s t).canary = (d.decompile symbols s t).canary) ∧
    ∀ c : Config, (c.enable .conditionFusion).runs .conditionFusion = true ∧
      (c.disable .conditionFusion).runs .conditionFusion = false ∧
      (c.enable .conditionFusion).AgreeButFusion (c.disable .conditionFusion) := by
  constructor
  · intro c d h
    have hn : c.named s (c.decompile symbols s t).tree =
        d.named s (d.decompile symbols s t).tree := by
      rw [named_decompile c symbols s t ha, named_decompile d symbols s t ha, named_congr h]
    have hg := h.passes .canaryGuard (by decide)
    apply Prod.mk.inj
    rw [slots_canary_decompile, slots_canary_decompile, hn, hg, h.canary]
  · intro c
    refine ⟨by simp [runs_enable], by simp [runs_disable], rfl, rfl, ?_⟩
    intro pass hp
    rw [runs_enable, runs_disable, if_neg hp, if_neg hp]

theorem slots_eq_of_agreeButFusion_guarded :
    guardedTree.attached = [] ∧
    ((default.enable .conditionFusion).decompile guardedImage.symbols guarded
        guardedTree).findings.slots.slots =
      [⟨1, -8, "var1_canary", 8⟩, ⟨2, -16, "var2", 8⟩] ∧
    ((default.enable .conditionFusion).decompile guardedImage.symbols guarded
        guardedTree).canary = some ⟨⟨0x100a, 0x1000, -8⟩, "var1_canary"⟩ := by
  have ha : guardedTree.attached = [] := rfl
  have h := slots_eq_of_agreeButFusion guardedImage.symbols guarded guardedTree ha
  obtain ⟨hs, hc⟩ := h.1 _ _ (h.2 default).2.2
  refine ⟨ha, ?_, ?_⟩
  · rw [hs]
    decide
  · rw [hc]
    decide

end Config

end Pseudocode
