import Pseudocode.Proofs.Coverage
import Pseudocode.Proofs.Locals
import Pseudocode.Proofs.Suppression
import Pseudocode.Proofs.Text.Style

namespace Pseudocode

open Terminal (Unstyles unstyle unstyled)

theorem ne_escape_of_isPrintable (c : Char) (hc : isPrintable c = true) : c ≠ '\x1b' := by
  rintro rfl
  revert hc
  decide

namespace Span

theorem escape_not_mem_render {span : Span} (h : span.Spelled (· ≠ '\x1b')) :
    '\x1b' ∉ (span.render none).toList := by
  have hp : ∀ c, isPlain c = true → c ≠ '\x1b' := fun c hc =>
    ne_escape_of_isPrintable c (isPrintable_of_isPlain hc)
  intro hm
  exact spelled_render hp h '\x1b' hm rfl

theorem render_of_get?_eq_some {colors : Colors} {a : UInt64} {code : Nat}
    (h : colors.get? a = some code) :
    (address a).render (some colors) = Terminal.styled code ((address a).render none) := by
  rw [render, Colors.paint, h]
  rfl

theorem render_of_get?_eq_none {colors : Colors} {a : UInt64} (h : colors.get? a = none) :
    (address a).render (some colors) = (address a).render none := by
  rw [render, Colors.paint, h]
  rfl

theorem unstyles_render (colors : Colors) {span : Span} (h : span.Spelled (· ≠ '\x1b')) :
    Unstyles (span.render (some colors)).toList (span.render none).toList := by
  cases span with
  | text s => exact .of_not_mem (escape_not_mem_render h)
  | address a =>
    cases ha : colors.get? a with
    | none =>
      rw [render_of_get?_eq_none ha]
      exact .of_not_mem (escape_not_mem_render h)
    | some code =>
      rw [render_of_get?_eq_some ha]
      exact .styled code (escape_not_mem_render h)

end Span

namespace Line

variable {scene : Scene} {indent : String} (comments : Bool) (colors : Colors)
  (hi : '\x1b' ∉ indent.toList) (hscene : scene.Spelling (· ≠ '\x1b'))
include hi hscene

theorem unstyles_characters {line : Line} (hc : line.content.Spelled (· ≠ '\x1b') scene) :
    Unstyles (line.characters scene ⟨indent, comments, some colors⟩)
      (line.characters scene ⟨indent, comments, none⟩) := by
  have hs := Scene.spelled_content ne_escape_of_isPrintable hscene hc
  apply Unstyles.append
  · apply Unstyles.of_not_mem
    intro hm
    exact hi (mem_indentation hm)
  · rw [Scene.wording, Scene.wording, String.toList_join, String.toList_join, List.flatMap_map,
      List.flatMap_map]
    apply Unstyles.flatMap
    intro span hm
    exact Span.unstyles_render colors (hs span hm)

variable {lines : List Line} (hl : ∀ line ∈ lines, line.content.Spelled (· ≠ '\x1b') scene)
include hl

theorem unstyled_renderAll :
    unstyled (renderAll scene ⟨indent, comments, some colors⟩ lines) =
      renderAll scene ⟨indent, comments, none⟩ lines := by
  have h : Unstyles (renderAll scene ⟨indent, comments, some colors⟩ lines).toList
      (renderAll scene ⟨indent, comments, none⟩ lines).toList := by
    rw [toList_renderAll, toList_renderAll, List.flatMap_map, List.flatMap_map]
    apply Unstyles.flatMap
    intro line hm
    apply (unstyles_characters comments colors hi hscene (hl line (Style.mem_select.mp hm).1)).append
    exact .of_not_mem (by decide)
  rw [unstyled, h.eq, String.ofList_toList]

theorem escape_not_mem_renderAll :
    '\x1b' ∉ (renderAll scene ⟨indent, comments, none⟩ lines).toList := by
  rw [toList_renderAll, List.mem_flatMap]
  rintro ⟨cs, hcs, hm⟩
  obtain ⟨line, hline, rfl⟩ := List.mem_map.mp hcs
  have hc := hl line (Style.mem_select.mp hline).1
  obtain hm | hm := List.mem_append.mp hm
  · exact spelled_characters ne_escape_of_isPrintable rfl (Spelled.of_not_mem hi) hscene hc
      '\x1b' hm rfl
  · cases List.mem_singleton.mp hm

/-- The colours can be seen if and only if one of the addresses in the text has a colour. -/
theorem renderAll_eq_iff :
    renderAll scene ⟨indent, comments, some colors⟩ lines =
        renderAll scene ⟨indent, comments, none⟩ lines ↔
      ∀ line ∈ Style.select ⟨indent, comments, none⟩ lines, ∀ a,
        .address a ∈ scene.content line.content → colors.get? a = none := by
  constructor
  · intro he line hm a ha
    -- A colour would bring in an escape character, and there is none in the text without colours.
    have hn := escape_not_mem_renderAll comments hi hscene hl
    rw [← he, toList_renderAll] at hn
    rw [Option.eq_none_iff_forall_ne_some]
    intro code hc
    have hs : '\x1b' ∈ ((Span.address a).render (some colors)).toList := by
      rw [Span.render_of_get?_eq_some hc]
      simp [Terminal.styled]
    have hw : '\x1b' ∈ (scene.wording (some colors) line.content).toList := by
      rw [Scene.wording, String.toList_join]
      exact List.mem_flatMap.mpr ⟨_, List.mem_map_of_mem ha, hs⟩
    apply hn
    refine List.mem_flatMap.mpr ⟨_, List.mem_map_of_mem hm, ?_⟩
    exact List.mem_append_left _ (List.mem_append_right _ hw)
  · intro h
    have hr : ∀ line ∈ Style.select ⟨indent, comments, none⟩ lines,
        line.render scene ⟨indent, comments, some colors⟩ =
          line.render scene ⟨indent, comments, none⟩ := by
      intro line hm
      have hw : (scene.content line.content).map (Span.render (some colors)) =
          (scene.content line.content).map (Span.render none) := by
        apply List.map_congr_left
        intro span hs
        cases span with
        | text s => rfl
        | address a => exact Span.render_of_get?_eq_none (h line hm a hs)
      rw [render, render, hw]
    exact congrArg String.join (List.map_congr_left hr)

end Line

namespace Recovered

variable {p : Char → Prop} (image : Image) (s : Stream) (r : Recovered)
  (hr : ∀ text ∈ Tree.remarks r.tree, Spelled p text)
include hr

theorem spelled_lines (depth : Nat) :
    ∀ line ∈ Tree.lines s r.findings.fused depth r.tree,
      line.content.Spelled p (r.scene image s) := by
  intro line hl
  have hd : line.content.Drawn (r.scene image s).stream r.findings.fused (Tree.remarks r.tree) :=
    Tree.drawn_lines r.tree depth (List.Subset.refl _) hl
  exact hd.spelled hr

theorem spelled_ofFunction {name : String} (hn : Spelled p name) :
    ∀ line ∈ Line.ofFunction s r.findings name r.tree,
      line.content.Spelled p (r.scene image s) := by
  intro line hl
  simp only [Line.ofFunction, List.mem_append, List.mem_singleton] at hl
  obtain ((rfl | hl) | hl) | rfl := hl
  · exact hn
  · split at hl
    · cases hl
    · obtain hl | hl := List.mem_append.mp hl
      · obtain ⟨slot, hs, rfl⟩ := List.mem_map.mp hl
        exact hs
      · rw [List.mem_singleton.mp hl]
        trivial
  · exact spelled_lines image s r hr 1 line hl
  · trivial

end Recovered

namespace Config

/-- If no name, comment or mnemonic has an escape character in it, deleting the style sequences from
the text of a function in colours gives the text without colours, and so it is for the lines of a
tree in any colours. The colours are there: the two texts are the same only if no address in them
has a colour. -/
theorem unstyled_render (c : Config) (image : Image) (name : String) (s : Stream) (r : Recovered)
    (hi : '\x1b' ∉ c.indent.toList) (hn : '\x1b' ∉ name.toList)
    (hm : ∀ i ∈ s.instructions, '\x1b' ∉ i.mnemonic.toList)
    (hr : ∀ text ∈ Tree.remarks r.tree, '\x1b' ∉ text.toList)
    (hy : ∀ a symbol, image.symbols.nameAt? a = some symbol → '\x1b' ∉ symbol.toList)
    (hs : ∀ slot ∈ r.findings.slots.slots, '\x1b' ∉ slot.name.toList) :
    unstyled (render { c with colors := true } image name s r) =
      render { c with colors := false } image name s r ∧
    (∀ (colors : Colors) (depth : Nat),
      unstyled (Line.renderAll (r.scene image s) ⟨c.indent, c.comments, some colors⟩
          (Tree.lines s r.findings.fused depth r.tree)) =
        Line.renderAll (r.scene image s) ⟨c.indent, c.comments, none⟩
          (Tree.lines s r.findings.fused depth r.tree)) ∧
    (render { c with colors := true } image name s r =
        render { c with colors := false } image name s r ↔
      ∀ line ∈ c.lines image name s r, ∀ a,
        .address a ∈ (r.scene image s).content line.content →
          (r.tree.colors s image.edges).get? a = none) := by
  have hscene : (r.scene image s).Spelling (· ≠ '\x1b') :=
    { slots := fun slot h => Spelled.of_not_mem (hs slot h)
      symbols := fun a symbol h => Spelled.of_not_mem (hy a symbol h)
      mnemonics := fun i h => Spelled.of_not_mem (hm i h) }
  have hr : ∀ text ∈ Tree.remarks r.tree, Spelled (· ≠ '\x1b') text := fun text h =>
    Spelled.of_not_mem (hr text h)
  have hl := r.spelled_ofFunction image s hr (Spelled.of_not_mem hn)
  refine ⟨Line.unstyled_renderAll c.comments _ hi hscene hl, ?_,
    Line.renderAll_eq_iff c.comments _ hi hscene hl⟩
  intro colors depth
  exact Line.unstyled_renderAll c.comments colors hi hscene (r.spelled_lines image s hr depth)

theorem unstyled_render_guarded :
    (∀ a symbol, guardedImage.symbols.nameAt? a = some symbol → '\x1b' ∉ symbol.toList) ∧
    render { default with colors := true } guardedImage "f" guarded
        (default.decompile guardedImage.symbols guarded guardedTree) ≠
      render { default with colors := false } guardedImage "f" guarded
        (default.decompile guardedImage.symbols guarded guardedTree) ∧
    unstyled (render { default with colors := true } guardedImage "f" guarded
        (default.decompile guardedImage.symbols guarded guardedTree)) =
      render { default with colors := false } guardedImage "f" guarded
        (default.decompile guardedImage.symbols guarded guardedTree) := by
  have hy : ∀ a symbol, guardedImage.symbols.nameAt? a = some symbol →
      '\x1b' ∉ symbol.toList := by
    intro a symbol ha
    have hs : guardedImage.symbols.nameAt? a =
        if a = 0x2000 then some "__stack_chk_fail@plt" else none := Table.get?_insert ..
    rw [hs] at ha
    split at ha
    · cases ha
      decide
    · cases ha
  have h := unstyled_render default guardedImage "f" guarded
    (default.decompile guardedImage.symbols guarded guardedTree) (by decide) (by decide)
    (by decide) (by decide) hy (by decide)
  refine ⟨hy, ?_, h.1⟩
  intro he
  have hl : ⟨1, .ifGoto (some 1) .lessOrEqual 0x100f⟩ ∈ default.lines guardedImage "f" guarded
      (default.decompile guardedImage.symbols guarded guardedTree) :=
    List.mem_of_getElem? (i := 7) rfl
  -- The target of the conditional jump is painted.
  have hc := h.2.2.mp he _ hl 0x100f (by simp [Scene.content])
  revert hc
  decide

end Config

end Pseudocode
