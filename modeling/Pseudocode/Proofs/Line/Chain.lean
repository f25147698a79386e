import Pseudocode.Proofs.Line.Text
import Pseudocode.Proofs.Tree.View

namespace Pseudocode

/-- The alternative continues a chain: it is a conditional, with a lone compare in front of it at
most. -/
def Continues (s : Stream) (items : List Item) : Prop :=
  ∃ c : Conditional, items = [.node c.toNode] ∨
    ∃ h i, items = [.block (.single h), .node c.toNode] ∧ s.get? h = some i ∧
      i.operation = .compare

structure Arm where
  test : Test
  body : List Item
  body_ne_nil : body ≠ []

/-- An arm behind another one. Its comparison may stand in front of it. -/
structure FurtherArm (s : Stream) extends Arm where
  leading : Option Nat
  compares : ∀ h, leading = some h → ∃ i, s.get? h = some i ∧ i.operation = .compare

structure Chain (s : Stream) where
  first : Arm
  further : List (FurtherArm s)
  last : List Item
  ends : ¬ Continues s last

namespace FurtherArm

variable {s : Stream} (arm : FurtherArm s)

/-- The comparison of the test itself goes first. -/
def tested : Option Nat :=
  arm.test.comparison.or arm.leading

def items (otherwise : List Item) : List Item :=
  arm.leading.toList.map (fun h => .block (.single h)) ++
    [.node (.ifElse arm.test arm.body otherwise)]

end FurtherArm

/-- The conditional in which every arm is the alternative of the one before. -/
def Chain.node {s : Stream} (c : Chain s) : Node :=
  .ifElse c.first.test c.first.body (c.further.foldr FurtherArm.items c.last)

section

variable (scene : Scene) (style : Style) (fused : Marks) (d : Nat)

def Style.line (text : String) : String :=
  String.join (List.replicate d style.indent) ++ text ++ "\n"

def echoText (tested : Option Nat) (jump : Nat) : String :=
  if style.comments then
    String.join (((tested.toList ++ [jump]).filterMap scene.stream.get?).map fun i =>
      style.line d ("# " ++ Hex.literal i.address.toNat ++ ": " ++ i.asm))
  else ""

def branchText (items : List Item) : String :=
  Line.renderAll scene style (Tree.lines scene.stream fused (d + 1) items)

def Arm.text (keyword : String) (tested : Option Nat) (arm : Arm) : String :=
  style.line d (keyword ++
      String.join ((scene.condition tested arm.test.condition.inverse).map
        (Span.render style.colors)) ++ " \x7b") ++
    branchText scene style fused d arm.body

def FurtherArm.text (arm : FurtherArm scene.stream) : String :=
  style.line d "\x7d" ++ echoText scene style d arm.tested arm.test.jump ++
    arm.toArm.text scene style fused d "else if " arm.tested

def lastText : List Item → String
  | [] => style.line d "\x7d"
  | items =>
    style.line d "\x7d else \x7b" ++ branchText scene style fused d items ++ style.line d "\x7d"

/-- The arms of a chain one behind the other, from the first header to the last brace. -/
def Chain.text (c : Chain scene.stream) : String :=
  c.first.text scene style fused d "if " c.first.test.comparison ++
    String.join (c.further.map (FurtherArm.text scene style fused d)) ++
    lastText scene style fused d c.last

end

namespace ElseArm

theorem ofItems_of_not_continues {s : Stream} {items : List Item} (h : ¬ Continues s items)
    (hn : items ≠ []) : ofItems s items = .block items := by
  obtain ⟨he, -⟩ | ⟨c, he, -⟩ | ⟨b, c, he, hl, -⟩ | ⟨-, hb⟩ := ofItems_cases s items
  · exact absurd he hn
  · exact absurd ⟨c, .inl he⟩ h
  · obtain ⟨hlen, i, hi, ho⟩ := Block.of_isLoneCompare hl
    have hb : b = .single b.start := by
      obtain ⟨start, stop⟩ := b
      simp only [Block.length] at hlen
      simp only [Block.single, Block.mk.injEq, true_and]
      omega
    rw [hb] at he
    exact absurd ⟨c, .inr ⟨b.start, i, he, hi, beq_iff_eq.mp ho⟩⟩ h
  · exact hb

theorem eq_nil_of_ofItems {s : Stream} {items : List Item} (h : ofItems s items = .none) :
    items = [] := by
  obtain ⟨rfl, -⟩ | ⟨c, -, ha⟩ | ⟨b, c, -, -, ha⟩ | ⟨-, ha⟩ := ofItems_cases s items
  · rfl
  all_goals rw [ha] at h; cases h

theorem of_elseIf {s : Stream} {items : List Item} {leading : Option Nat} {nested : Conditional}
    (h : ofItems s items = .elseIf leading nested) :
    items = [.node nested.toNode] ∨ ∃ b, items = [.block b, .node nested.toNode] := by
  obtain ⟨rfl, -⟩ | ⟨c, rfl, ha⟩ | ⟨b, c, rfl, -, ha⟩ | ⟨-, ha⟩ := ofItems_cases s items
  · cases h
  · rw [ha] at h
    cases h
    exact .inl rfl
  · rw [ha] at h
    cases h
    exact .inr ⟨b, rfl⟩
  · rw [ha] at h
    cases h

theorem ofItems_items {s : Stream} (arm : FurtherArm s) (otherwise : List Item) :
    ofItems s (arm.items otherwise) = .elseIf arm.leading ⟨arm.test, arm.body, otherwise⟩ := by
  rw [FurtherArm.items]
  cases hl : arm.leading with
  | none => rfl
  | some h =>
    obtain ⟨i, hi, ho⟩ := arm.compares h hl
    have hc : (Block.single h).isLoneCompare s = true := by
      simp [Block.isLoneCompare, Block.single, Block.length, hi, ho]
    exact if_pos hc

end ElseArm

/-- The lines behind the first branch of a conditional. -/
def alternativeLines (s : Stream) (fused : Marks) (d : Nat) (otherwise : List Item) : List Line :=
  match ElseArm.ofItems s otherwise with
  | .none => [⟨d, .close⟩]
  | .block _ => [⟨d, .openElse⟩] ++ Tree.lines s fused (d + 1) otherwise ++ [⟨d, .close⟩]
  | .elseIf leading _ => ⟨d, .close⟩ :: chainLines s fused d leading otherwise

theorem Node.lines_ifElse (s : Stream) (fused : Marks) (d : Nat) (approach : Approach) (arm : Arm)
    (otherwise : List Item) :
    Node.lines s fused d approach (.ifElse arm.test arm.body otherwise) =
      Line.echoes s d (approach.tested arm.test) arm.test.jump ++
        [⟨d, .openIf approach.isChained (approach.tested arm.test) arm.test.condition.inverse⟩] ++
        Tree.lines s fused (d + 1) arm.body ++ alternativeLines s fused d otherwise := by
  rw [Node.lines, Conditional.view_of_body_ne_nil arm.body_ne_nil]
  rfl

/-- The line that a conditional opens with, behind its echoes. -/
def Conditional.header (c : Conditional) (s : Stream) (d : Nat) (approach : Approach) : Line :=
  ⟨d, .openIf approach.isChained (approach.tested c.test) (c.view s).condition⟩

namespace Conditional

variable {s : Stream} {c nested : Conditional} {h : Nat}

theorem header_mem_lines (fused : Marks) (d : Nat) (approach : Approach) :
    c.header s d approach ∈ c.toNode.lines s fused d approach := by
  rw [toNode, Node.lines]
  apply List.mem_append_left
  apply List.mem_append_left
  exact List.mem_append_right _ List.mem_cons_self

/-- A conditional behind a lone compare opens as a further arm, at the depth of the chain. -/
theorem header_mem_lines_of_leading? (hl : c.leading? s = some (h, nested)) (fused : Marks)
    (d : Nat) (approach : Approach) :
    nested.header s d (.chained (some h)) ∈ c.toNode.lines s fused d approach := by
  obtain ⟨hn, b, hi, hlone, rfl⟩ := leading?_eq_some hl
  have ha : ElseArm.ofItems s c.otherwise = .elseIf (some b.start) nested := by
    rw [hi, toNode, ElseArm.ofItems, if_pos hlone]
  rw [toNode, Node.lines_ifElse s fused d approach ⟨c.test, c.body, hn⟩, alternativeLines, ha, hi]
  apply List.mem_append_right
  apply List.mem_cons_of_mem
  exact header_mem_lines fused d (.chained (some b.start))

end Conditional

mutual

theorem Node.conditional_lines_subset {s : Stream} {fused : Marks} {c : Conditional} :
    ∀ (n : Node) (d : Nat) (a : Approach), c ∈ n.conditionals →
      ∃ e b, c.toNode.lines s fused e b ⊆ n.lines s fused d a
  | .seq items, d, _, hc => Tree.conditional_lines_subset items d hc
  | .ifElse test body otherwise, d, a, hc => by
    obtain rfl | hc := List.mem_cons.mp hc
    · exact ⟨d, a, List.Subset.refl _⟩
    by_cases hn : body = []
    · have ho : c ∈ Tree.conditionals otherwise := by simpa [hn, Tree.conditionals] using hc
      obtain ⟨e, b, he⟩ := Tree.conditional_lines_subset otherwise (d + 1) ho
      rw [Node.lines, Conditional.view_of_body_nil hn]
      refine ⟨e, b, ?_⟩
      apply List.subset_append_of_subset_left
      exact List.subset_append_of_subset_right _ he
    · rw [Node.lines_ifElse s fused d a ⟨test, body, hn⟩ otherwise]
      obtain hb | ho := List.mem_append.mp hc
      · obtain ⟨e, b, he⟩ := Tree.conditional_lines_subset body (d + 1) hb
        refine ⟨e, b, ?_⟩
        apply List.subset_append_of_subset_left
        exact List.subset_append_of_subset_right _ he
      · obtain ⟨e, b, he⟩ : ∃ e b,
            c.toNode.lines s fused e b ⊆ alternativeLines s fused d otherwise := by
          rw [alternativeLines]
          split
          next ha =>
            rw [ElseArm.eq_nil_of_ofItems ha] at ho
            cases ho
          next =>
            obtain ⟨e, b, he⟩ := Tree.conditional_lines_subset otherwise (d + 1) ho
            refine ⟨e, b, ?_⟩
            apply List.subset_append_of_subset_left
            exact List.subset_append_of_subset_right _ he
          next leading nested ha =>
            obtain ⟨e, b, he⟩ := conditional_chainLines_subset otherwise d ha ho
            exact ⟨e, b, List.subset_cons_of_subset _ he⟩
        exact ⟨e, b, List.subset_append_of_subset_right _ he⟩
  | .loop body infinite epilog, d, _, hc => by
    obtain hb | hc := List.mem_append.mp hc
    · obtain ⟨e, b, he⟩ := Tree.conditional_lines_subset body (d + 1) hb
      refine ⟨e, b, ?_⟩
      apply List.subset_append_of_subset_left
      apply List.subset_append_of_subset_left
      exact List.subset_append_of_subset_right _ he
    · obtain ⟨e, b, he⟩ := conditional_epilogLines_subset epilog d hc
      exact ⟨e, b, List.subset_append_of_subset_right _ he⟩
  | .ifGoto .., _, _, hc | .andIf _, _, _, hc | .jump _, _, _, hc | .comment _, _, _, hc => by
    cases hc

/-- Every conditional of a tree has its lines among the lines of the tree. -/
theorem Tree.conditional_lines_subset {s : Stream} {fused : Marks} {c : Conditional} :
    ∀ (items : List Item) (d : Nat), c ∈ Tree.conditionals items →
      ∃ e b, c.toNode.lines s fused e b ⊆ Tree.lines s fused d items
  | [], _, hc => by cases hc
  | .block _ :: items, d, hc => by
    obtain ⟨e, b, he⟩ := Tree.conditional_lines_subset items d hc
    exact ⟨e, b, List.subset_append_of_subset_right _ he⟩
  | .node n :: items, d, hc => by
    obtain hc | hc := List.mem_append.mp hc
    · obtain ⟨e, b, he⟩ := Node.conditional_lines_subset n d .plain hc
      exact ⟨e, b, List.subset_append_of_subset_left _ he⟩
    · obtain ⟨e, b, he⟩ := Tree.conditional_lines_subset items d hc
      exact ⟨e, b, List.subset_append_of_subset_right _ he⟩

theorem conditional_epilogLines_subset {s : Stream} {fused : Marks} {c : Conditional} :
    ∀ (epilog : Option Node) (d : Nat), c ∈ epilogConditionals epilog →
      ∃ e b, c.toNode.lines s fused e b ⊆ epilogLines s fused d epilog
  | none, _, hc => by cases hc
  | some n, d, hc => Node.conditional_lines_subset n d .plain hc

theorem conditional_chainLines_subset {s : Stream} {fused : Marks} {c nested : Conditional}
    {leading : Option Nat} : ∀ (items : List Item) (d : Nat),
      ElseArm.ofItems s items = .elseIf leading nested → c ∈ Tree.conditionals items →
        ∃ e b, c.toNode.lines s fused e b ⊆ chainLines s fused d leading items
  | [], _, _, hc => by cases hc
  | .node n :: _, d, ha, hc => by
    apply Node.conditional_lines_subset n d (.chained leading)
    obtain he | ⟨b, he⟩ := ElseArm.of_elseIf ha
    · cases he
      simpa [Tree.conditionals, Item.conditionals] using hc
    · cases he
  | .block _ :: .node n :: _, d, ha, hc => by
    apply Node.conditional_lines_subset n d (.chained leading)
    obtain he | ⟨b, he⟩ := ElseArm.of_elseIf ha
    · cases he
    · cases he
      simpa [Tree.conditionals, Item.conditionals] using hc
  | [.block _], _, ha, _ | .block _ :: .block _ :: _, _, ha, _ => by cases ha

end

namespace Line

variable (scene : Scene) (style : Style) (d : Nat)

theorem render_eq_line (line : Line) : line.render scene style =
    style.line line.depth (scene.wording style.colors line.content) := rfl

theorem renderAll_singleton {content : Content} (h : content.isComment = false) :
    renderAll scene style [⟨d, content⟩] = style.line d (scene.wording style.colors content) := by
  have hs : style.select [⟨d, content⟩] = [⟨d, content⟩] := by
    rw [Style.select]
    split
    · rfl
    · simp [h]
  rw [renderAll, hs, List.map_singleton, String.join_cons, String.join_nil, String.append_empty,
    render_eq_line]

theorem renderAll_echoes (tested : Option Nat) (jump : Nat) :
    renderAll scene style (echoes scene.stream d tested jump) =
      echoText scene style d tested jump := by
  rw [renderAll, Style.select, echoText]
  split
  · have hr : render scene style ∘ (fun i => ⟨d, .echo i⟩) = fun i : Instruction =>
        style.line d ("# " ++ Hex.literal i.address.toNat ++ ": " ++ i.asm) := by
      funext i
      simp [render, Style.line, Scene.content, Span.render]
    rw [echoes, List.map_map, hr]
  · have he : (echoes scene.stream d tested jump).filter (!·.content.isComment) = [] := by
      rw [List.filter_eq_nil_iff]
      intro line hl
      obtain ⟨i, -, rfl⟩ := List.mem_map.mp hl
      simp [Content.isComment]
    rw [he, List.map_nil, String.join_nil]

theorem renderAll_close : renderAll scene style [⟨d, .close⟩] = style.line d "\x7d" := by
  rw [renderAll_singleton scene style d rfl]
  simp [Scene.wording, Scene.content, Span.render]

theorem renderAll_openElse :
    renderAll scene style [⟨d, .openElse⟩] = style.line d "\x7d else \x7b" := by
  rw [renderAll_singleton scene style d rfl]
  simp [Scene.wording, Scene.content, Span.render]

theorem renderAll_openIf (chained : Bool) (tested : Option Nat) (c : Condition) :
    renderAll scene style [⟨d, .openIf chained tested c⟩] =
      style.line d ((if chained then "else if " else "if ") ++
        String.join ((scene.condition tested c).map (Span.render style.colors)) ++ " \x7b") := by
  rw [renderAll_singleton scene style d rfl]
  simp [Scene.wording, Scene.content, Span.render, String.append_assoc]

end Line

section

variable (scene : Scene) (style : Style) (fused : Marks) (d : Nat)

theorem renderAll_arm (approach : Approach) (arm : Arm) (otherwise : List Item) :
    Line.renderAll scene style
        (Node.lines scene.stream fused d approach (.ifElse arm.test arm.body otherwise)) =
      echoText scene style d (approach.tested arm.test) arm.test.jump ++
        arm.text scene style fused d (if approach.isChained then "else if " else "if ")
          (approach.tested arm.test) ++
        Line.renderAll scene style (alternativeLines scene.stream fused d otherwise) := by
  rw [Node.lines_ifElse, Line.renderAll_append, Line.renderAll_append, Line.renderAll_append,
    Line.renderAll_echoes, Line.renderAll_openIf, Arm.text, branchText]
  simp only [String.append_assoc]

theorem renderAll_last (last : List Item) (h : ¬ Continues scene.stream last) :
    Line.renderAll scene style (alternativeLines scene.stream fused d last) =
      lastText scene style fused d last := by
  cases last with
  | nil => exact Line.renderAll_close scene style d
  | cons item items =>
    rw [alternativeLines, ElseArm.ofItems_of_not_continues h (List.cons_ne_nil item items),
      Line.renderAll_append, Line.renderAll_append, Line.renderAll_close, Line.renderAll_openElse]
    rfl

theorem alternativeLines_items (arm : FurtherArm scene.stream) (otherwise : List Item) :
    alternativeLines scene.stream fused d (arm.items otherwise) =
      [⟨d, .close⟩] ++ Node.lines scene.stream fused d (.chained arm.leading)
        (.ifElse arm.test arm.body otherwise) := by
  rw [alternativeLines, ElseArm.ofItems_items, FurtherArm.items]
  cases arm.leading <;> rfl

theorem renderAll_further (further : List (FurtherArm scene.stream)) (last : List Item)
    (h : ¬ Continues scene.stream last) :
    Line.renderAll scene style
        (alternativeLines scene.stream fused d (further.foldr FurtherArm.items last)) =
      String.join (further.map (FurtherArm.text scene style fused d)) ++
        lastText scene style fused d last := by
  induction further with
  | nil => simpa using renderAll_last scene style fused d last h
  | cons arm further ih =>
    -- the brace in front of an arm closes the branch of the arm before it
    rw [List.foldr_cons, alternativeLines_items, Line.renderAll_append, Line.renderAll_close,
      renderAll_arm, ih, List.map_cons, String.join_cons, FurtherArm.text]
    simp only [String.append_assoc]
    rfl

/-- The text of a chain is flat at any length: the arms follow one another at the depth of the
conditional, each with its echoes in front of its header and its branch one step deeper. -/
theorem renderAll_chain (c : Chain scene.stream) :
    Line.renderAll scene style (c.node.lines scene.stream fused d .plain) =
      echoText scene style d c.first.test.comparison c.first.test.jump ++
        c.text scene style fused d := by
  rw [Chain.node, renderAll_arm, renderAll_further scene style fused d c.further c.last c.ends,
    Chain.text]
  simp only [String.append_assoc]
  rfl

end

namespace Chain

def comparedTwice : Stream :=
  let a : Operand := .register (.general .x86_64 0 32)
  let b : Operand := .register (.general .x86_64 3 32)
  ⟨[⟨0x1000, 4, [], .compare, "cmp", [a, .immediate (.signed 1 32)], .sequential⟩,
    ⟨0x1004, 4, [], .conditionalJump, "jne", [.immediate (.signed 0x1010 64)], .sequential⟩,
    ⟨0x1008, 4, [], .xor, "xor", [b, b], .sequential⟩,
    ⟨0x1010, 4, [], .compare, "cmp", [a, .immediate (.signed 2 32)], .sequential⟩,
    ⟨0x1014, 4, [], .conditionalJump, "jne", [.immediate (.signed 0x1020 64)], .sequential⟩,
    ⟨0x1018, 4, [], .inc, "inc", [b], .sequential⟩], rfl⟩

def comparedTwiceScene : Scene := ⟨.x86_64, comparedTwice, .empty "var", .empty⟩

def twoArms : Chain comparedTwice where
  first := ⟨⟨1, .notEqual, some 0⟩, [.block ⟨2, 3⟩], by simp⟩
  further := [⟨⟨⟨4, .notEqual, none⟩, [.block ⟨5, 6⟩], by simp⟩, some 3,
    fun h hh => by cases hh; exact ⟨_, rfl, rfl⟩⟩]
  last := []
  ends := by
    rintro ⟨c, he | ⟨h, i, he, -⟩⟩
    · cases he
    · cases he

theorem renderAll_chain_twoArms :
    Line.renderAll comparedTwiceScene ⟨"    ", true, none⟩
        (twoArms.node.lines comparedTwice .empty 0 .plain) =
      "# 0x1000: cmp eax, 0x1\n# 0x1004: jne 0x1010\nif eax == 0x1 \x7b\n    0x1008: ebx = 0\n" ++
      "\x7d\n# 0x1010: cmp eax, 0x2\n# 0x1014: jne 0x1020\nelse if eax == 0x2 \x7b\n" ++
      "    0x1018: ebx++\n\x7d\n" := by
  apply (renderAll_chain comparedTwiceScene ⟨"    ", true, none⟩ .empty 0 twoArms).trans
  rfl

/-- The first arm has echoes as well: with comments, a chain does not start with its header. -/
theorem renderAll_twoArms_ne_text :
    Line.renderAll comparedTwiceScene ⟨"    ", true, none⟩
        (twoArms.node.lines comparedTwice .empty 0 .plain) ≠
      twoArms.text comparedTwiceScene ⟨"    ", true, none⟩ .empty 0 := by
  decide

end Chain

end Pseudocode
