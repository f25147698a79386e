import Pseudocode.Line.Layout
import Pseudocode.Proofs.Stream

namespace Pseudocode

mutual

def Item.remarks : Item → List String
  | .block _ => []
  | .node n => n.remarks

def Node.remarks : Node → List String
  | .seq items => Tree.remarks items
  | .ifElse _ body otherwise => Tree.remarks body ++ Tree.remarks otherwise
  | .loop body _ epilog => Tree.remarks body ++ epilogRemarks epilog
  | .comment text => [text]
  | .ifGoto .. | .andIf _ | .jump _ => []

def Tree.remarks : List Item → List String
  | [] => []
  | item :: items => item.remarks ++ Tree.remarks items

def epilogRemarks : Option Node → List String
  | none => []
  | some n => n.remarks

end

/-- The content can come from a tree with the comments `remarks` over a stream. -/
def Content.Drawn (s : Stream) (fused : Marks) (remarks : List String) : Content → Prop
  | .statement i h => s.get? h = some i ∧ fused.contains i.address = false
  | .echo i => i ∈ s.instructions
  | .remark text => text ∈ remarks
  | .openFunction _ | .declaration _ | .blank => False
  | _ => True

namespace Line

variable {s : Stream} {fused : Marks} {remarks : List String} {line : Line} {d : Nat}

theorem drawn_ofBlock {b : Block} (hl : line ∈ ofBlock s fused d b) :
    line.content.Drawn s fused remarks := by
  obtain ⟨⟨i, h⟩, hm, hi⟩ := List.mem_filterMap.mp hl
  cases hc : fused.contains i.address with
  | true => simp [hc] at hi
  | false =>
    simp only [hc, Bool.false_eq_true, if_false, Option.some.injEq] at hi
    subst hi
    exact ⟨Stream.mem_run hm, hc⟩

theorem drawn_echoes {tested : Option Nat} {jump : Nat} (hl : line ∈ echoes s d tested jump) :
    line.content.Drawn s fused remarks := by
  obtain ⟨i, hm, rfl⟩ := List.mem_map.mp hl
  obtain ⟨h, -, hi⟩ := List.mem_filterMap.mp hm
  exact List.mem_of_getElem? hi

end Line

mutual

theorem Node.drawn_lines {s : Stream} {fused : Marks} {remarks : List String} {line : Line} :
    ∀ (n : Node) (d : Nat) (a : Approach), n.remarks ⊆ remarks → line ∈ n.lines s fused d a →
      line.content.Drawn s fused remarks
  | .seq items, d, _, hr, hl => Tree.drawn_lines items d hr hl
  | .ifGoto test target, d, _, _, hl => by
    obtain hl | hl := List.mem_append.mp hl
    · exact Line.drawn_echoes hl
    · rw [List.mem_singleton.mp hl]
      trivial
  | .andIf test, d, _, _, hl => by
    obtain hl | hl := List.mem_append.mp hl
    · exact Line.drawn_echoes hl
    · rw [List.mem_singleton.mp hl]
      trivial
  | .ifElse test body otherwise, d, a, hr, hl => by
    obtain ⟨hb, ho⟩ := List.append_subset.mp hr
    simp only [Node.lines, List.mem_append, List.mem_singleton] at hl
    obtain ((hl | rfl) | hl) | hl := hl
    · exact Line.drawn_echoes hl
    · trivial
    · split at hl
      · exact Tree.drawn_lines otherwise (d + 1) ho hl
      · exact Tree.drawn_lines body (d + 1) hb hl
    · split at hl
      · rw [List.mem_singleton.mp hl]
        trivial
      · simp only [List.mem_append, List.mem_singleton] at hl
        obtain (rfl | hl) | rfl := hl
        · trivial
        · exact Tree.drawn_lines otherwise (d + 1) ho hl
        · trivial
      · obtain rfl | hl := List.mem_cons.mp hl
        · trivial
        · exact drawn_chainLines otherwise d _ ho hl
  | .jump target, d, _, _, hl => by
    rw [List.mem_singleton.mp hl]
    trivial
  | .loop body infinite epilog, d, _, hr, hl => by
    simp only [Node.lines, List.mem_append, List.mem_singleton] at hl
    obtain ((rfl | hl) | rfl) | hl := hl
    · trivial
    · exact Tree.drawn_lines body (d + 1) (List.append_subset.mp hr).1 hl
    · trivial
    · exact drawn_epilogLines epilog d (List.append_subset.mp hr).2 hl
  | .comment text, d, _, hr, hl => by
    rw [List.mem_singleton.mp hl]
    exact hr List.mem_cons_self

theorem Tree.drawn_lines {s : Stream} {fused : Marks} {remarks : List String} {line : Line} :
    ∀ (items : List Item) (d : Nat), Tree.remarks items ⊆ remarks →
      line ∈ Tree.lines s fused d items → line.content.Drawn s fused remarks
  | [], _, _, hl => by cases hl
  | .block b :: items, d, hr, hl => by
    obtain hl | hl := List.mem_append.mp hl
    · exact Line.drawn_ofBlock hl
    · exact Tree.drawn_lines items d hr hl
  | .node n :: items, d, hr, hl => by
    obtain hl | hl := List.mem_append.mp hl
    · exact Node.drawn_lines n d .plain (List.append_subset.mp hr).1 hl
    · exact Tree.drawn_lines items d (List.append_subset.mp hr).2 hl

theorem drawn_epilogLines {s : Stream} {fused : Marks} {remarks : List String} {line : Line} :
    ∀ (epilog : Option Node) (d : Nat), epilogRemarks epilog ⊆ remarks →
      line ∈ epilogLines s fused d epilog → line.content.Drawn s fused remarks
  | none, _, _, hl => by cases hl
  | some n, d, hr, hl => Node.drawn_lines n d .plain hr hl

theorem drawn_chainLines {s : Stream} {fused : Marks} {remarks : List String} {line : Line} :
    ∀ (items : List Item) (d : Nat) (leading : Option Nat), Tree.remarks items ⊆ remarks →
      line ∈ chainLines s fused d leading items → line.content.Drawn s fused remarks
  | [], _, _, _, hl => by cases hl
  | .block _ :: items, d, leading, hr, hl => drawn_chainLines items d leading hr hl
  | .node n :: items, d, leading, hr, hl =>
    Node.drawn_lines n d (.chained leading) (List.append_subset.mp hr).1 hl

end

end Pseudocode
