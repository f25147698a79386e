import Pseudocode.Proofs.Line.Chain
import Pseudocode.Proofs.Line.Operands

namespace Pseudocode

def Span.renderAll (colors : Option Colors) (spans : List Span) : String :=
  String.join (spans.map (render colors))

namespace Scene

variable (scene : Scene) (colors : Option Colors)

/-- The words of a condition on the instruction `i`. A comparison shows both operands, a test shows
what it makes of them, and of anything else the condition asks what it comes to. -/
def conditionText (i : Instruction) (c : Condition) : String :=
  match i.operation, scene.operands i with
  | .compare, [a, b] =>
    if c.isRelational then a ++ " " ++ c.symbol ++ " " ++ b
    else c.symbol ++ "(" ++ a ++ " - " ++ b ++ ")"
  | .test, [a, b] =>
    if i.isSelfTest then
      if c.isRelational then a ++ " " ++ c.symbol ++ " 0" else c.symbol ++ "(" ++ a ++ ")"
    else if c.isRelational then "(" ++ a ++ " & " ++ b ++ ") " ++ c.symbol ++ " 0"
    else c.symbol ++ "(" ++ a ++ " & " ++ b ++ ")"
  | _, _ =>
    if c.isRelational then
      "(" ++ Span.renderAll colors (scene.statement i) ++ ") " ++ c.symbol ++ " 0"
    else c.symbol ++ "(" ++ Span.renderAll colors (scene.statement i) ++ ")"

theorem renderAll_condition {h : Nat} {i : Instruction} (hi : scene.stream.get? h = some i)
    (c : Condition) :
    Span.renderAll colors (scene.condition (some h) c) = scene.conditionText colors i c := by
  have hb : (some h).bind scene.stream.get? = some i := hi
  have hp (text : String) : ")" ++ (" " ++ text) = ") " ++ text := by
    rw [← String.append_assoc]
    rfl
  rw [conditionText]
  split
  next a b ho hops =>
    have ht : scene.tested i = .pair a b := by rw [tested, ho, hops]
    rw [condition, hb]
    dsimp only
    rw [ht]
    cases c.isRelational <;> simp [Span.renderAll, Span.render]
  next a b ho hops =>
    have ht : scene.tested i =
        if i.isSelfTest then .value [.text a] false else .value [.text (a ++ " & " ++ b)] true := by
      rw [tested, ho, hops]
    rw [condition, hb]
    dsimp only
    rw [ht]
    cases i.isSelfTest <;> cases c.isRelational <;>
      simp [Span.renderAll, Span.render, String.append_assoc, hp]
  next hcompare htest =>
    have ht : scene.tested i = .value (scene.statement i) true := by
      rw [tested]
      split
      next a b ho hops => exact (hcompare a b ho hops).elim
      next a b ho hops => exact (htest a b ho hops).elim
      next => rfl
    rw [condition, hb]
    dsimp only
    rw [ht]
    cases c.isRelational <;> simp [Span.renderAll, Span.render, String.append_assoc, hp]

theorem wording_statement (i : Instruction) (h : Nat) :
    scene.wording colors (.statement i h) =
      (Span.address i.address).render colors ++ ": " ++
        Span.renderAll colors (scene.statement i) := by
  simp [wording, content, Span.renderAll, Span.render, String.append_assoc]

theorem wording_ifGoto (tested : Option Nat) (c : Condition) (target : UInt64) :
    scene.wording colors (.ifGoto tested c target) =
      "if " ++ Span.renderAll colors (scene.condition tested c) ++ "  goto " ++
        (Span.address target).render colors := by
  simp [wording, content, Span.renderAll, Span.render, String.append_assoc]

theorem wording_andIf (tested : Option Nat) (c : Condition) :
    scene.wording colors (.andIf tested c) =
      "and if " ++ Span.renderAll colors (scene.condition tested c) := by
  simp [wording, content, Span.renderAll, Span.render]

theorem wording_openIf (chained : Bool) (tested : Option Nat) (c : Condition) :
    scene.wording colors (.openIf chained tested c) =
      (if chained then "else if " else "if ") ++
        Span.renderAll colors (scene.condition tested c) ++ " \x7b" := by
  simp [wording, content, Span.renderAll, Span.render, String.append_assoc]

end Scene

/-- What a line reads, without its indentation, if it shows the instruction `i` with the handle `h`.
A statement follows its painted address, and a test stands in the condition of its line. -/
inductive Content.Reads (scene : Scene) (colors : Option Colors) (h : Nat) (i : Instruction) :
    Content → String → Prop
  | statement : Reads scene colors h i (.statement i h)
      ((Span.address i.address).render colors ++ ": " ++
        Span.renderAll colors (scene.statement i))
  | ifGoto (c : Condition) (target : UInt64) : Reads scene colors h i (.ifGoto (some h) c target)
      ("if " ++ scene.conditionText colors i c ++ "  goto " ++
        (Span.address target).render colors)
  | andIf (c : Condition) : Reads scene colors h i (.andIf (some h) c)
      ("and if " ++ scene.conditionText colors i c)
  | openIf (chained : Bool) (c : Condition) : Reads scene colors h i (.openIf chained (some h) c)
      ((if chained then "else if " else "if ") ++ scene.conditionText colors i c ++ " \x7b")

namespace Content

variable {scene : Scene} {colors : Option Colors} {h : Nat} {i : Instruction} {content : Content}

theorem Reads.shown? {text : String} (hr : content.Reads scene colors h i text) :
    content.shown? = some h := by
  cases hr <;> rfl

theorem reads_wording (hi : content.instruction? scene.stream = some i)
    (hg : scene.stream.get? h = some i) (hs : content.shown? = some h) :
    content.Reads scene colors h i (scene.wording colors content) := by
  have hc := scene.renderAll_condition colors hg
  cases content with
  | statement j k =>
    obtain rfl : j = i := Option.some.inj hi
    obtain rfl : k = h := Option.some.inj hs
    rw [Scene.wording_statement]
    exact .statement
  | ifGoto tested c target =>
    obtain rfl : tested = some h := hs
    rw [Scene.wording_ifGoto, hc]
    exact .ifGoto c target
  | andIf tested c =>
    obtain rfl : tested = some h := hs
    rw [Scene.wording_andIf, hc]
    exact .andIf c
  | openIf chained tested c =>
    obtain rfl : tested = some h := hs
    rw [Scene.wording_openIf, hc]
    exact .openIf chained c
  | _ => cases hi

end Content

/-- A line shows the instruction `i` of the stream, which has the handle `h`: it reads as a statement
of `i` or as a condition on it, and the operands of `i` stand in it. -/
structure Line.Shows (line : Line) (scene : Scene) (style : Style) (h : Nat) (i : Instruction) :
    Prop where
  get? : scene.stream.get? h = some i
  reads : ∃ text, line.content.Reads scene style.colors h i text ∧
    line.render scene style = style.line line.depth text
  operands : ∀ op ∈ i.spelledOperands, Occurs (scene.operand op) (line.render scene style) ∨
    ∃ a, op.directTarget? = some a ∧
      Occurs ((Span.address a).render style.colors) (line.render scene style)

theorem Line.shows {line : Line} {scene : Scene} (style : Style) {h : Nat} {i : Instruction}
    (hi : line.content.instruction? scene.stream = some i) (hg : scene.stream.get? h = some i)
    (hs : line.content.shown? = some h) : line.Shows scene style h i where
  get? := hg
  reads := ⟨scene.wording style.colors line.content, Content.reads_wording hi hg hs,
    line.render_eq_line scene style⟩
  operands := by
    intro op ho
    obtain hw | ⟨a, ha, hm⟩ := scene.names_content hi ho
    · exact .inl (line.occurs_render scene style hw)
    · exact .inr ⟨a, ha, line.occurs_span scene style hm⟩

end Pseudocode
