import Pseudocode.Proofs.Colors
import Pseudocode.Proofs.Coverage
import Pseudocode.Proofs.Line.Chain
import Pseudocode.Proofs.Line.Operands

namespace Pseudocode

/-- The block starts with a jump whose operand names the address `target`, and that is where the
edges lead from it. -/
structure Block.Lands (b : Block) (s : Stream) (edges : Edges) (i : Instruction)
    (target : UInt64) : Prop where
  nonempty : b.start < b.stop
  first : s.get? b.start = some i
  jumps : i.isJump = true
  not_call : i.isCall = false
  direct : i.operands.head?.bind Operand.directTarget? = some target
  next : edges.next? i.address = some target

theorem Block.Lands.landing? {b : Block} {s : Stream} {edges : Edges} {i : Instruction}
    {target : UInt64} (h : b.Lands s edges i target) : b.landing? s edges = some target := by
  rw [Block.landing?, Block.first?, Block.isEmpty_eq_false.mpr h.nonempty]
  simp [h.first, h.jumps, h.direct, h.next]

theorem Test.block_not_mem_references (test : Test) (b : Block) :
    .block b ∉ test.references := by
  simp [Test.references]

mutual

theorem Node.mem_targets_of_landing? {s : Stream} {edges : Edges} {b : Block} {a : UInt64}
    (ha : b.landing? s edges = some a) : ∀ n : Node, .block b ∈ n.references →
      a ∈ n.targets s edges
  | .seq items, hb => Tree.mem_targets_of_landing? ha items hb
  | .ifElse test body otherwise, hb => by
    obtain hb | hb := List.mem_append.mp hb
    · obtain hb | hb := List.mem_append.mp hb
      · exact absurd hb (test.block_not_mem_references b)
      · exact List.mem_append_right _ (Tree.mem_targets_of_landing? ha body hb)
    · exact List.mem_append_left _ (Tree.mem_targets_of_landing? ha otherwise hb)
  | .loop body infinite epilog, hb => by
    obtain hb | hb := List.mem_append.mp hb
    · exact List.mem_append_left _ (Tree.mem_targets_of_landing? ha body hb)
    · exact List.mem_append_right _ (mem_epilogTargets_of_landing? ha epilog hb)
  | .ifGoto test _, hb | .andIf test, hb => absurd hb (test.block_not_mem_references b)
  | .jump _, hb | .comment _, hb => by cases hb

theorem Tree.mem_targets_of_landing? {s : Stream} {edges : Edges} {b : Block} {a : UInt64}
    (ha : b.landing? s edges = some a) : ∀ items : List Item,
      .block b ∈ Tree.references items → a ∈ Tree.targets s edges items
  | [], hb => by cases hb
  | .block b' :: items, hb => by
    obtain hb | hb := List.mem_append.mp hb
    · cases List.mem_singleton.mp hb
      exact List.mem_append_left _ (Option.mem_toList.mpr ha)
    · exact List.mem_append_right _ (Tree.mem_targets_of_landing? ha items hb)
  | .node n :: items, hb => by
    obtain hb | hb := List.mem_append.mp hb
    · exact List.mem_append_left _ (Node.mem_targets_of_landing? ha n hb)
    · exact List.mem_append_right _ (Tree.mem_targets_of_landing? ha items hb)

theorem mem_epilogTargets_of_landing? {s : Stream} {edges : Edges} {b : Block} {a : UInt64}
    (ha : b.landing? s edges = some a) : ∀ epilog : Option Node,
      .block b ∈ epilogReferences epilog → a ∈ epilogTargets s edges epilog
  | none, hb => by cases hb
  | some n, hb => Node.mem_targets_of_landing? ha n hb

end

theorem Tree.exists_color_of_mem_targets {t : Tree} {s : Stream} {edges : Edges} {a : UInt64}
    (ha : a ∈ Tree.targets s edges t) : ∃ code, (t.colors s edges).get? a = some code := by
  apply Option.ne_none_iff_exists'.mp
  rw [ne_eq, Colors.get?_eq_none_iff, not_not, Tree.colors, Colors.targets_ofTargets,
    List.mem_eraseDups]
  exact ha

section Lines

variable {s : Stream} {fused : Marks} {b : Block} {h : Nat} {i : Instruction}

theorem Line.statement_mem_ofBlock (hh : h ∈ b.handles) (hi : s.get? h = some i)
    (hf : fused.contains i.address = false) (d : Nat) :
    ⟨d, .statement i h⟩ ∈ Line.ofBlock s fused d b := by
  have hr : (i, h) ∈ s.run b.start b.stop := by
    rw [Stream.run_eq]
    exact List.mem_filterMap.mpr ⟨h, hh, by rw [hi, Option.map_some]⟩
  refine List.mem_filterMap.mpr ⟨(i, h), hr, ?_⟩
  simp [hf]

theorem Block.not_isLoneCompare (hh : h ∈ b.handles) (hi : s.get? h = some i)
    (ho : i.operation ≠ .compare) : b.isLoneCompare s = false := by
  rw [← Bool.not_eq_true]
  intro hc
  obtain ⟨hlen, j, hj, hop⟩ := Block.of_isLoneCompare hc
  rw [Block.handles_of_length_one hlen, List.mem_singleton] at hh
  rw [hh, hj] at hi
  cases hi
  exact ho (beq_iff_eq.mp hop)

theorem exists_mem_alternativeLines {content : Content} {otherwise : List Item} {d : Nat}
    (hb : ∃ e, ⟨e, content⟩ ∈ Tree.lines s fused (d + 1) otherwise)
    (hc : ∀ leading nested, ElseArm.ofItems s otherwise = .elseIf leading nested →
      ∃ e, ⟨e, content⟩ ∈ chainLines s fused d leading otherwise) :
    ∃ e, ⟨e, content⟩ ∈ alternativeLines s fused d otherwise := by
  obtain ⟨e, he⟩ := hb
  rw [alternativeLines]
  split
  next ha =>
    rw [ElseArm.eq_nil_of_ofItems ha] at he
    cases he
  next => exact ⟨e, List.mem_append_left _ (List.mem_append_right _ he)⟩
  next leading nested ha =>
    obtain ⟨e, he⟩ := hc leading nested ha
    exact ⟨e, List.mem_cons_of_mem _ he⟩

/-- A chain goes on in a conditional that refers to all blocks of the alternative, a lone compare in
front of it apart. -/
theorem ElseArm.block_mem_of_elseIf {items : List Item} {leading : Option Nat}
    {nested : Conditional} (ha : ElseArm.ofItems s items = .elseIf leading nested)
    (hn : b.isLoneCompare s = false) (hb : .block b ∈ Tree.references items) :
    (items = [.node nested.toNode] ∨ ∃ c, items = [.block c, .node nested.toNode]) ∧
      .block b ∈ nested.toNode.references := by
  obtain ⟨rfl, -⟩ | ⟨c, rfl, ha'⟩ | ⟨b', c, rfl, hc, ha'⟩ | ⟨-, ha'⟩ :=
    ElseArm.ofItems_cases s items
  · cases hb
  · rw [ha'] at ha
    cases ha
    exact ⟨.inl rfl, by simpa [Tree.references, Item.references] using hb⟩
  · rw [ha'] at ha
    cases ha
    have hb : b = b' ∨ .block b ∈ nested.toNode.references := by
      simpa [Tree.references, Item.references] using hb
    obtain rfl | hb := hb
    · rw [hn] at hc
      cases hc
    · exact ⟨.inr ⟨b', rfl⟩, hb⟩
  · rw [ha'] at ha
    cases ha

end Lines

mutual

theorem Node.statement_mem_lines {s : Stream} {fused : Marks} {b : Block} {h : Nat}
    {i : Instruction} (hh : h ∈ b.handles) (hi : s.get? h = some i)
    (hf : fused.contains i.address = false) (ho : i.operation ≠ .compare) :
    ∀ (n : Node) (d : Nat) (a : Approach), .block b ∈ n.references →
      ∃ e, ⟨e, .statement i h⟩ ∈ n.lines s fused d a
  | .seq items, d, _, hb => Tree.statement_mem_lines hh hi hf ho items d hb
  | .ifElse test body otherwise, d, a, hb => by
    obtain hb | hb := List.mem_append.mp hb
    · obtain hb | hb := List.mem_append.mp hb
      · exact absurd hb (test.block_not_mem_references b)
      · have hn : body ≠ [] := by
          rintro rfl
          cases hb
        obtain ⟨e, he⟩ := Tree.statement_mem_lines hh hi hf ho body (d + 1) hb
        rw [Node.lines_ifElse s fused d a ⟨test, body, hn⟩ otherwise]
        exact ⟨e, List.mem_append_left _ (List.mem_append_right _ he)⟩
    · by_cases hn : body = []
      · obtain ⟨e, he⟩ := Tree.statement_mem_lines hh hi hf ho otherwise (d + 1) hb
        rw [Node.lines, Conditional.view_of_body_nil hn]
        exact ⟨e, List.mem_append_left _ (List.mem_append_right _ he)⟩
      · obtain ⟨e, he⟩ := exists_mem_alternativeLines
          (Tree.statement_mem_lines hh hi hf ho otherwise (d + 1) hb)
          fun leading _ ha => statement_mem_chainLines hh hi hf ho otherwise d leading ha hb
        rw [Node.lines_ifElse s fused d a ⟨test, body, hn⟩ otherwise]
        exact ⟨e, List.mem_append_right _ he⟩
  | .loop body infinite epilog, d, _, hb => by
    obtain hb | hb := List.mem_append.mp hb
    · obtain ⟨e, he⟩ := Tree.statement_mem_lines hh hi hf ho body (d + 1) hb
      exact ⟨e, by simp [Node.lines, he]⟩
    · obtain ⟨e, he⟩ := statement_mem_epilogLines hh hi hf ho epilog d hb
      exact ⟨e, List.mem_append_right _ he⟩
  | .ifGoto test _, _, _, hb | .andIf test, _, _, hb =>
    absurd hb (test.block_not_mem_references b)
  | .jump _, _, _, hb | .comment _, _, _, hb => by cases hb

/-- An instruction of a block has a line of its own, unless it is fused or a compare. -/
theorem Tree.statement_mem_lines {s : Stream} {fused : Marks} {b : Block} {h : Nat}
    {i : Instruction} (hh : h ∈ b.handles) (hi : s.get? h = some i)
    (hf : fused.contains i.address = false) (ho : i.operation ≠ .compare) :
    ∀ (items : List Item) (d : Nat), .block b ∈ Tree.references items →
      ∃ e, ⟨e, .statement i h⟩ ∈ Tree.lines s fused d items
  | [], _, hb => by cases hb
  | .block b' :: items, d, hb => by
    obtain hb | hb := List.mem_append.mp hb
    · cases List.mem_singleton.mp hb
      exact ⟨d, List.mem_append_left _ (Line.statement_mem_ofBlock hh hi hf d)⟩
    · obtain ⟨e, he⟩ := Tree.statement_mem_lines hh hi hf ho items d hb
      exact ⟨e, List.mem_append_right _ he⟩
  | .node n :: items, d, hb => by
    obtain hb | hb := List.mem_append.mp hb
    · obtain ⟨e, he⟩ := Node.statement_mem_lines hh hi hf ho n d .plain hb
      exact ⟨e, List.mem_append_left _ he⟩
    · obtain ⟨e, he⟩ := Tree.statement_mem_lines hh hi hf ho items d hb
      exact ⟨e, List.mem_append_right _ he⟩

theorem statement_mem_epilogLines {s : Stream} {fused : Marks} {b : Block} {h : Nat}
    {i : Instruction} (hh : h ∈ b.handles) (hi : s.get? h = some i)
    (hf : fused.contains i.address = false) (ho : i.operation ≠ .compare) :
    ∀ (epilog : Option Node) (d : Nat), .block b ∈ epilogReferences epilog →
      ∃ e, ⟨e, .statement i h⟩ ∈ epilogLines s fused d epilog
  | none, _, hb => by cases hb
  | some n, d, hb => Node.statement_mem_lines hh hi hf ho n d .plain hb

theorem statement_mem_chainLines {s : Stream} {fused : Marks} {b : Block} {h : Nat}
    {i : Instruction} (hh : h ∈ b.handles) (hi : s.get? h = some i)
    (hf : fused.contains i.address = false) (ho : i.operation ≠ .compare) {nested : Conditional} :
    ∀ (items : List Item) (d : Nat) (leading : Option Nat),
      ElseArm.ofItems s items = .elseIf leading nested → .block b ∈ Tree.references items →
        ∃ e, ⟨e, .statement i h⟩ ∈ chainLines s fused d leading items
  | [], _, _, _, hb => by cases hb
  | .node n :: _, d, leading, ha, hb => by
    apply Node.statement_mem_lines hh hi hf ho n d (.chained leading)
    obtain ⟨he | ⟨c, he⟩, hr⟩ :=
      ElseArm.block_mem_of_elseIf ha (Block.not_isLoneCompare hh hi ho) hb
    · cases he
      exact hr
    · cases he
  | .block _ :: .node n :: _, d, leading, ha, hb => by
    apply Node.statement_mem_lines hh hi hf ho n d (.chained leading)
    obtain ⟨he | ⟨c, he⟩, hr⟩ :=
      ElseArm.block_mem_of_elseIf ha (Block.not_isLoneCompare hh hi ho) hb
    · cases he
    · cases he
      exact hr
  | [.block _], _, _, ha, _ | .block _ :: .block _ :: _, _, _, ha, _ => by cases ha

end

def Symbols.annotation (symbols : Symbols) (a : UInt64) : String :=
  (symbols.nameAt? a).elim "" fun name => " <" ++ name ++ ">"

namespace Scene

variable (scene : Scene) {i : Instruction} {target : UInt64}

theorem statement_of_jump (hc : i.isCall = false) (ho : i.operation = .jump)
    (hd : i.operands.head?.bind Operand.directTarget? = some target) (colors : Option Colors) :
    String.join ((scene.statement i).map (Span.render colors)) =
      "jmp " ++ (Span.address target).render colors ++ scene.symbols.annotation target := by
  obtain ⟨op, hop, hd⟩ := Option.bind_eq_some_iff.mp hd
  obtain ⟨rest, hr⟩ := List.head?_eq_some_iff.mp hop
  have hs : scene.statement i = .text "jmp " :: scene.target op := by
    rw [statement, hc, if_neg Bool.false_ne_true, ho, hr]
  rw [hs, Scene.target, hd, Symbols.annotation]
  cases hn : scene.symbols.nameAt? target <;> simp [hn, Span.render, String.append_assoc]

theorem statement_of_not_jump (hc : i.isCall = false) (ho : i.operation ≠ .jump)
    (colors : Option Colors) :
    String.join ((scene.statement i).map (Span.render colors)) =
      assignment i.operation i.mnemonic (scene.operands i) := by
  rw [scene.statement_eq_assignment (by simp [hc, ho])]
  simp [Span.render]

end Scene

namespace Config

variable {c : Config} {image : Image} {name : String} {s : Stream} {r : Recovered} {b : Block}
  {h : Nat} {i : Instruction} {target : UInt64}

theorem statement_mem_lines (c : Config) (image : Image) (name : String)
    (hb : .block b ∈ Tree.references r.tree) (hh : h ∈ b.handles) (hi : s.get? h = some i)
    (hf : r.findings.fused.contains i.address = false) (ho : i.operation ≠ .compare) :
    ∃ d, ⟨d, .statement i h⟩ ∈ c.lines image name s r := by
  obtain ⟨d, hd⟩ := Tree.statement_mem_lines hh hi hf ho r.tree 1 hb
  refine ⟨d, Style.mem_select.mpr ⟨?_, .inr rfl⟩⟩
  exact List.mem_append_left _ (List.mem_append_right _ hd)

theorem render_statement (hc : c.colors = true) (d : Nat) :
    Line.render (r.scene image s) (c.style image.edges s r.tree) ⟨d, .statement i h⟩ =
      (c.style image.edges s r.tree).line d
        ((r.tree.colors s image.edges).paint i.address (Hex.literal i.address.toNat) ++ ": " ++
          String.join (((r.scene image s).statement i).map
            (Span.render (some (r.tree.colors s image.edges))))) := by
  have hs : (c.style image.edges s r.tree).colors = some (r.tree.colors s image.edges) :=
    if_pos hc
  rw [Line.render_eq_line, hs, Scene.wording_statement]
  rfl

/-- An address that a block of the tree lands on has a colour. If the operation of the jump is a
jump, its line shows the address in that colour, followed by its name. If the instruction jumps by
its control flow only, there is no address in its line but its own. -/
theorem landing_painted (c : Config) (image : Image) (name : String) (s : Stream) (r : Recovered)
    (hc : c.colors = true) (hb : .block b ∈ Tree.references r.tree)
    (hl : b.Lands s image.edges i target) (hf : r.findings.fused.contains i.address = false) :
    ∃ code, (r.tree.colors s image.edges).get? target = some code ∧
      (i.operation = .jump → ∃ line ∈ c.lines image name s r,
        line.content = .statement i b.start ∧
        line.render (r.scene image s) (c.style image.edges s r.tree) =
          (c.style image.edges s r.tree).line line.depth
            ((r.tree.colors s image.edges).paint i.address (Hex.literal i.address.toNat) ++
              ": jmp " ++ Terminal.styled code (Hex.literal target.toNat) ++
              image.symbols.annotation target)) ∧
      (i.operation ≠ .jump → ∀ line ∈ c.lines image name s r,
        line.content = .statement i b.start →
        line.render (r.scene image s) (c.style image.edges s r.tree) =
          (c.style image.edges s r.tree).line line.depth
            ((r.tree.colors s image.edges).paint i.address (Hex.literal i.address.toNat) ++
              ": " ++ Scene.assignment i.operation i.mnemonic ((r.scene image s).operands i))) := by
  obtain ⟨code, hcode⟩ := Tree.exists_color_of_mem_targets
    (Tree.mem_targets_of_landing? hl.landing? r.tree hb)
  refine ⟨code, hcode, ?_, ?_⟩
  · intro ho
    have hh : b.start ∈ b.handles := Block.mem_handles.mpr ⟨Nat.le_refl _, hl.nonempty⟩
    have hn : i.operation ≠ .compare := by
      rw [ho]
      decide
    obtain ⟨d, hd⟩ := statement_mem_lines c image name hb hh hl.first hf hn
    refine ⟨_, hd, rfl, ?_⟩
    rw [render_statement hc, Scene.statement_of_jump _ hl.not_call ho hl.direct, Span.render,
      Colors.paint, Colors.paint, hcode]
    simp only [String.append_assoc]
    rfl
  · rintro ho ⟨d, content⟩ - rfl
    rw [render_statement hc, Scene.statement_of_not_jump _ hl.not_call ho]

def colored : Config := { default with colors := true }

def exitImage : Image := ⟨.x86_64, .ofList [("exit", 0x1020)], .ofList [(0x1000, [0x1020])]⟩

def soleBlock : Recovered := ⟨[.block ⟨0, 1⟩], .start "var", none⟩

theorem landing_painted_loneJump :
    colored.colors = true ∧ .block ⟨0, 1⟩ ∈ Tree.references soleBlock.tree ∧
    (⟨0, 1⟩ : Block).Lands loneJump exitImage.edges
      ⟨0x1000, 2, [], .jump, "jmp", [.relative 0x1e 0x1020], .unconditionalBranch 0x1020⟩ 0x1020 ∧
    soleBlock.findings.fused.contains 0x1000 = false ∧
    ∃ line ∈ colored.lines exitImage "f" loneJump soleBlock,
      line.render (soleBlock.scene exitImage loneJump)
          (colored.style exitImage.edges loneJump soleBlock.tree) =
        (colored.style exitImage.edges loneJump soleBlock.tree).line line.depth
          "0x1000: jmp \x1b[31m0x1020\x1b[0m <exit>" := by
  have hb : .block ⟨0, 1⟩ ∈ Tree.references soleBlock.tree := List.mem_cons_self
  have hl : (⟨0, 1⟩ : Block).Lands loneJump exitImage.edges
      ⟨0x1000, 2, [], .jump, "jmp", [.relative 0x1e 0x1020], .unconditionalBranch 0x1020⟩
      0x1020 := ⟨by decide, rfl, rfl, rfl, rfl, rfl⟩
  obtain ⟨code, hcode, hj, -⟩ := landing_painted colored exitImage "f" loneJump soleBlock rfl hb hl
    rfl
  obtain ⟨line, hm, -, ht⟩ := hj rfl
  have h31 : (soleBlock.tree.colors loneJump exitImage.edges).get? 0x1020 = some 31 := by decide
  rw [h31] at hcode
  cases hcode
  exact ⟨rfl, hb, hl, rfl, line, hm, ht⟩

def flowJump : Stream :=
  ⟨[⟨0x1000, 2, [], .other 0, "jmp", [.relative 0x1e 0x1020], .unconditionalBranch 0x1020⟩], rfl⟩

/-- The address has a colour, and its jump is not fused, but the colour is nowhere in the text. -/
theorem landing_not_painted_flowJump :
    (⟨0, 1⟩ : Block).Lands flowJump exitImage.edges
      ⟨0x1000, 2, [], .other 0, "jmp", [.relative 0x1e 0x1020], .unconditionalBranch 0x1020⟩
      0x1020 ∧
    soleBlock.findings.fused.contains 0x1000 = false ∧
    (soleBlock.tree.colors flowJump exitImage.edges).get? 0x1020 = some 31 ∧
    colored.render exitImage "f" flowJump soleBlock =
      "function f \x7b\n    0x1000: jmp 0x1020\n\x7d\n" ∧
    ¬ Occurs (Terminal.styled 31 "0x1020") (colored.render exitImage "f" flowJump soleBlock) := by
  have ht : colored.render exitImage "f" flowJump soleBlock =
      "function f \x7b\n    0x1000: jmp 0x1020\n\x7d\n" := by
    decide
  refine ⟨⟨by decide, rfl, rfl, rfl, rfl, rfl⟩, rfl, by decide, ht, ?_⟩
  intro h
  -- There is no escape in the text.
  have he := h.subset (a := '\x1b') (by simp [Terminal.styled])
  rw [ht] at he
  revert he
  decide

end Config

end Pseudocode
