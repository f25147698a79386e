import Pseudocode.Proofs.Line.Painted
import Pseudocode.Proofs.Painting

namespace Pseudocode

def isCommentLine (line : List Char) : Bool :=
  (line.dropWhile Char.isWhitespace).head? == some '#'

def commentLines (text : String) : List (List Char) :=
  (text.toList.splitOn '\n').filter isCommentLine

/-- The text that is left when the comment lines are deleted. -/
def withoutComments (text : String) : String :=
  String.ofList (['\n'].intercalate ((text.toList.splitOn '\n').filter fun line =>
    !isCommentLine line))

theorem intercalate_concat_nil (ls : List (List Char)) :
    ['\n'].intercalate (ls ++ [[]]) = ls.flatMap (· ++ ['\n']) := by
  induction ls with
  | nil => rfl
  | cons l ls ih =>
    rw [List.flatMap_cons, ← ih]
    cases ls with
    | nil => simp [List.intercalate]
    | cons k ls => simp [List.intercalate]

namespace Line

section

variable {scene : Scene} {style : Style} {line : Line}

theorem isCommentLine_characters (hi : ∀ c ∈ style.indent.toList, c.isWhitespace = true) :
    isCommentLine (line.characters scene style) = line.content.isComment := by
  have hb : ∀ c ∈ (String.join (List.replicate line.depth style.indent)).toList,
      c.isWhitespace = true := fun c hc => hi c (mem_indentation hc)
  rw [isCommentLine, characters]
  by_cases hn : line.content = .blank
  · have hw : (scene.wording style.colors .blank).toList = [] := rfl
    rw [hn, hw, List.dropWhile_append_of_pos hb]
    rfl
  · obtain ⟨c, cs, hcs, hw, hc⟩ := scene.exists_wording_eq_cons style.colors hn
    rw [hcs, dropWhile_indented hb hw, Bool.eq_iff_iff, ← line.content.initial?_eq_hash_iff]
    obtain hc | ⟨hc, rfl⟩ := hc
    · simp [hc]
    · simp [hc]

theorem newline_not_mem_characters (hi : '\n' ∉ style.indent.toList)
    (hscene : scene.Spelling (· ≠ '\n')) (hc : line.content.Spelled (· ≠ '\n') scene) :
    '\n' ∉ line.characters scene style := by
  have hp : ∀ c, isPlain c = true → c ≠ '\n' := fun c hc =>
    ne_newline_of_isPrintable c (isPrintable_of_isPlain hc)
  intro hm
  obtain hm | hm := List.mem_append.mp hm
  · exact hi (mem_indentation hm)
  · have hs := Scene.spelled_content ne_newline_of_isPrintable hscene hc
    exact Span.spelled_join hp (by decide) style.colors hs '\n' hm rfl

end

section

variable {scene : Scene} {indent : String} (colors : Option Colors) {lines : List Line}
  (hl : ∀ line ∈ lines, '\n' ∉ line.characters scene ⟨indent, true, colors⟩)
include hl

theorem splitOn_renderAll_commented :
    (renderAll scene ⟨indent, true, colors⟩ lines).toList.splitOn '\n' =
      lines.map (characters scene ⟨indent, true, colors⟩) ++ [[]] :=
  splitOn_renderAll hl

variable (hi : ∀ c ∈ indent.toList, c.isWhitespace = true)
include hi

theorem commentLines_renderAll :
    commentLines (renderAll scene ⟨indent, true, colors⟩ lines) =
      (lines.filter (·.content.isComment)).map (characters scene ⟨indent, true, colors⟩) := by
  have hc : isCommentLine ∘ characters scene ⟨indent, true, colors⟩ = (·.content.isComment) := by
    funext line
    exact isCommentLine_characters hi
  rw [commentLines, splitOn_renderAll_commented colors hl, List.filter_append, List.filter_map, hc]
  exact List.append_nil _

theorem withoutComments_renderAll :
    withoutComments (renderAll scene ⟨indent, true, colors⟩ lines) =
      renderAll scene ⟨indent, false, colors⟩ lines := by
  have hc : (fun line => !isCommentLine line) ∘ characters scene ⟨indent, true, colors⟩ =
      (!·.content.isComment) := by
    funext line
    exact congrArg (!·) (isCommentLine_characters hi)
  apply String.toList_injective
  rw [withoutComments, String.toList_ofList, splitOn_renderAll_commented colors hl,
    List.filter_append, List.filter_map, hc, toList_renderAll]
  exact intercalate_concat_nil _

end

end Line

namespace Scene

variable {p : Char → Prop} {scene : Scene} {t : Tree}
  (hr : ∀ text ∈ Tree.remarks t, Spelled p text)
include hr

theorem spelled_lines (fused : Marks) (depth : Nat) :
    ∀ line ∈ Tree.lines scene.stream fused depth t, line.content.Spelled p scene := by
  intro line hl
  exact (Tree.drawn_lines t depth (List.Subset.refl _) hl).spelled hr

theorem spelled_ofFunction (fused : Marks) {name : String} (hn : Spelled p name) :
    ∀ line ∈ Line.ofFunction scene.stream ⟨fused, scene.slots⟩ name t,
      line.content.Spelled p scene :=
  Recovered.spelled_ofFunction ⟨scene.arch, scene.symbols, .empty⟩ scene.stream
    ⟨t, ⟨fused, scene.slots⟩, none⟩ hr hn

end Scene

namespace Tree

/-- With an indentation of blanks and without line breaks in the names, the text of a function
without comments is its text with comments after the comment lines are deleted, and so it is for the
lines of a tree at any depth. The deleted lines are the comments, all of them and in order. -/
theorem render_eq_withoutComments (scene : Scene) (fused : Marks) (name : String) (t : Tree)
    (indent : String) (colors : Option Colors)
    (hi : ∀ c ∈ indent.toList, c.isWhitespace = true ∧ c ≠ '\n') (hn : '\n' ∉ name.toList)
    (hm : ∀ i ∈ scene.stream.instructions, '\n' ∉ i.mnemonic.toList)
    (hr : ∀ text ∈ Tree.remarks t, '\n' ∉ text.toList)
    (hy : ∀ a symbol, scene.symbols.nameAt? a = some symbol → '\n' ∉ symbol.toList)
    (hs : ∀ slot ∈ scene.slots.slots, '\n' ∉ slot.name.toList) :
    ∀ lines, (lines = Line.ofFunction scene.stream ⟨fused, scene.slots⟩ name t ∨
        ∃ depth, lines = Tree.lines scene.stream fused depth t) →
      Line.renderAll scene ⟨indent, false, colors⟩ lines =
        withoutComments (Line.renderAll scene ⟨indent, true, colors⟩ lines) ∧
      commentLines (Line.renderAll scene ⟨indent, true, colors⟩ lines) =
        (lines.filter (·.content.isComment)).map
          (Line.characters scene ⟨indent, true, colors⟩) := by
  have hscene : scene.Spelling (· ≠ '\n') :=
    { slots := fun slot h => Spelled.of_not_mem (hs slot h)
      symbols := fun a symbol h => Spelled.of_not_mem (hy a symbol h)
      mnemonics := fun i h => Spelled.of_not_mem (hm i h) }
  have hr : ∀ text ∈ Tree.remarks t, Spelled (· ≠ '\n') text := fun text h =>
    Spelled.of_not_mem (hr text h)
  intro lines hl
  have hc : ∀ line ∈ lines, line.content.Spelled (· ≠ '\n') scene := by
    obtain rfl | ⟨depth, rfl⟩ := hl
    · exact Scene.spelled_ofFunction hr fused (Spelled.of_not_mem hn)
    · exact Scene.spelled_lines hr fused depth
  have hb : ∀ line ∈ lines, '\n' ∉ line.characters scene ⟨indent, true, colors⟩ := fun line h =>
    Line.newline_not_mem_characters (fun hm => (hi '\n' hm).2 rfl) hscene (hc line h)
  have hw : ∀ c ∈ indent.toList, c.isWhitespace = true := fun c h => (hi c h).1
  exact ⟨(Line.withoutComments_renderAll colors hb hw).symm,
    Line.commentLines_renderAll colors hb hw⟩

def remarked : Tree :=
  [.block ⟨0, 1⟩, .node (.ifElse ⟨1, .equal, some 0⟩ [.block ⟨1, 2⟩] []), .node (.comment "end")]

theorem render_eq_withoutComments_remarked :
    Line.renderAll ⟨.x86_64, comparedMove.stream, comparedMove.slots, .empty⟩ ⟨"  ", false, none⟩
        (Tree.lines comparedMove.stream .empty 0 remarked) =
      withoutComments (Line.renderAll ⟨.x86_64, comparedMove.stream, comparedMove.slots, .empty⟩
        ⟨"  ", true, none⟩ (Tree.lines comparedMove.stream .empty 0 remarked)) ∧
    commentLines (Line.renderAll ⟨.x86_64, comparedMove.stream, comparedMove.slots, .empty⟩
        ⟨"  ", true, none⟩ (Tree.lines comparedMove.stream .empty 0 remarked)) =
      ["# 0x1000: cmp eax, 0x1".toList, "# 0x1003: mov eax, 0x2".toList, "# end".toList] := by
  have hi : ∀ c ∈ "  ".toList, c.isWhitespace = true ∧ c ≠ '\n' := by simp
  have h := render_eq_withoutComments ⟨.x86_64, comparedMove.stream, comparedMove.slots, .empty⟩
    .empty "f" remarked "  " none hi (by decide) (by decide) (by decide)
    (fun _ _ hn => nomatch hn) (by decide) _ (.inr ⟨0, rfl⟩)
  refine ⟨h.1, h.2.trans ?_⟩
  decide

end Tree

end Pseudocode
