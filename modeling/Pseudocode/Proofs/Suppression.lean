import Pseudocode.Proofs.Line.Drawn
import Pseudocode.Proofs.Line.Text

namespace Pseudocode

theorem ne_newline_of_isPrintable (c : Char) (hc : isPrintable c = true) : c ≠ '\n' := by
  rintro rfl
  revert hc
  decide

namespace Content.Drawn

variable {fused : Marks} {remarks : List String} {content : Content}

theorem spelled {p : Char → Prop} {scene : Scene} (hc : content.Drawn scene.stream fused remarks)
    (hr : ∀ text ∈ remarks, Pseudocode.Spelled p text) : content.Spelled p scene := by
  cases content with
  | statement i h => exact List.mem_of_getElem? hc.1
  | remark text => exact hr text hc
  | echo i => exact hc
  | openFunction name => exact hc.elim
  | declaration slot => exact hc.elim
  | _ => trivial

theorem statement_or_initial? {s : Stream} (hc : content.Drawn s fused remarks) :
    (∃ i h, content = .statement i h ∧ fused.contains i.address = false) ∨
      ∃ c, content.initial? = some c ∧ c ≠ '0' ∧ c.isWhitespace = false := by
  cases content with
  | statement i h => exact .inl ⟨i, h, rfl, hc.2⟩
  | openIf chained tested c => cases chained <;> exact .inr ⟨_, rfl, by decide, by decide⟩
  | openLoop infinite => cases infinite <;> exact .inr ⟨_, rfl, by decide, by decide⟩
  | openFunction name => exact hc.elim
  | declaration slot => exact hc.elim
  | blank => exact hc.elim
  | _ => exact .inr ⟨_, rfl, by decide, by decide⟩

end Content.Drawn

theorem Scene.toList_wording_statement (scene : Scene) (i : Instruction) (h : Nat) :
    ∃ rest, (scene.wording none (.statement i h)).toList =
      (Hex.literal i.address.toNat).toList ++ ':' :: ' ' :: rest := by
  refine ⟨(String.join ((scene.statement i).map (Span.render none))).toList, ?_⟩
  simp [wording, Scene.content, Span.render]

namespace Line

variable {scene : Scene} {style : Style} {line : Line}

theorem isPrefix_characters_iff {fused : Marks} {remarks : List String} {a : UInt64}
    (hn : style.colors = none) (hi : ∀ c ∈ style.indent.toList, c.isWhitespace = true)
    (hd : line.content.Drawn scene.stream fused remarks) :
    (Hex.literal a.toNat ++ ": ").toList <+:
        (line.characters scene style).dropWhile Char.isWhitespace ↔
      ∃ i h, line.content = .statement i h ∧ i.address = a := by
  have hb : ∀ c ∈ (String.join (List.replicate line.depth style.indent)).toList,
      c.isWhitespace = true := fun c hc => hi c (mem_indentation hc)
  have hl : (Hex.literal a.toNat ++ ": ").toList = (Hex.literal a.toNat).toList ++ [':', ' '] := by
    rw [String.toList_append]
    rfl
  rw [hl, characters, hn]
  obtain ⟨i, h, hs, -⟩ | ⟨c, hc, h0, hw⟩ := hd.statement_or_initial?
  · obtain ⟨rest, hr⟩ := scene.toList_wording_statement i h
    have hx : (Hex.literal i.address.toNat).toList ++ ':' :: ' ' :: rest =
        '0' :: 'x' :: (Nat.toDigits 16 i.address.toNat ++ ':' :: ' ' :: rest) := by
      rw [Hex.toList_literal]
      rfl
    rw [hs, hr, hx, dropWhile_indented hb (by decide), ← hx]
    constructor
    · intro hp
      -- The colon ends both numbers, so they are equal.
      exact ⟨i, h, rfl, UInt64.toNat_inj.mp (Hex.eq_of_isPrefix hp).symm⟩
    · rintro ⟨j, k, hj, rfl⟩
      cases hj
      exact ⟨rest, by simp⟩
  · have hcs := hc
    rw [← scene.head?_wording] at hcs
    obtain ⟨cs, hcs⟩ := List.head?_eq_some_iff.mp hcs
    rw [hcs, dropWhile_indented hb hw, Hex.toList_literal]
    constructor
    · intro hp
      exact absurd (List.cons_prefix_cons.mp hp).1.symm h0
    · rintro ⟨j, k, hj, -⟩
      rw [hj] at hc
      exact absurd (Option.some.inj hc).symm h0

end Line

namespace Tree

section

variable (scene : Scene) {style : Style} (fused : Marks) (depth : Nat) {t : Tree}
  (hn : style.colors = none)
include hn

theorem splitOn_renderAll_lines (hi : '\n' ∉ style.indent.toList)
    (hscene : scene.Spelling (· ≠ '\n')) (hr : ∀ text ∈ Tree.remarks t, '\n' ∉ text.toList) :
    (Line.renderAll scene style (Tree.lines scene.stream fused depth t)).toList.splitOn '\n' =
      (style.select (Tree.lines scene.stream fused depth t)).map (Line.characters scene style) ++
        [[]] := by
  apply Line.splitOn_renderAll
  intro line hl
  have hd := Tree.drawn_lines t depth (List.Subset.refl _) (Style.mem_select.mp hl).1
  have hc := hd.spelled fun text ht => Spelled.of_not_mem (hr text ht)
  intro hm
  exact Line.spelled_characters ne_newline_of_isPrintable hn (Spelled.of_not_mem hi) hscene hc
    '\n' hm rfl

/-- The addresses that lines of a tree start with are those of its statements. Nothing stands on the
empty line at the end. -/
theorem exists_isPrefix_iff (t : Tree) (hi : ∀ c ∈ style.indent.toList, c.isWhitespace = true)
    (a : UInt64) :
    (∃ line ∈ (style.select (Tree.lines scene.stream fused depth t)).map
        (Line.characters scene style) ++ [[]],
      (Hex.literal a.toNat ++ ": ").toList <+: line.dropWhile Char.isWhitespace) ↔
    ∃ line ∈ Tree.lines scene.stream fused depth t, ∃ i h,
      line.content = .statement i h ∧ i.address = a := by
  have hp : ∀ line ∈ Tree.lines scene.stream fused depth t,
      ((Hex.literal a.toNat ++ ": ").toList <+:
          (line.characters scene style).dropWhile Char.isWhitespace ↔
        ∃ i h, line.content = .statement i h ∧ i.address = a) := by
    intro line hl
    exact Line.isPrefix_characters_iff hn hi (Tree.drawn_lines t depth (List.Subset.refl _) hl)
  constructor
  · rintro ⟨cs, hl, ha⟩
    obtain hl | hl := List.mem_append.mp hl
    · obtain ⟨line, hs, rfl⟩ := List.mem_map.mp hl
      have hm := (Style.mem_select.mp hs).1
      exact ⟨line, hm, (hp line hm).mp ha⟩
    · rw [List.mem_singleton.mp hl, String.toList_append, Hex.toList_literal] at ha
      cases List.prefix_nil.mp ha
  · rintro ⟨line, hm, i, h, hst, ha⟩
    have hs : line ∈ style.select (Tree.lines scene.stream fused depth t) :=
      Style.mem_select.mpr ⟨hm, .inr (by rw [hst]; rfl)⟩
    refine ⟨line.characters scene style, ?_, (hp line hm).mpr ⟨i, h, hst, ha⟩⟩
    exact List.mem_append_left _ (List.mem_map_of_mem hs)

end

/-- With an indentation of blanks and without line breaks in the names, no line of the text of a
tree starts with a marked address, whatever the marks are. The addresses that lines do start with
are those of the statements. -/
theorem not_isPrefix_of_fused (scene : Scene) (style : Style) (fused : Marks) (depth : Nat)
    (t : Tree) (hn : style.colors = none)
    (hi : ∀ c ∈ style.indent.toList, c.isWhitespace = true ∧ c ≠ '\n')
    (hm : ∀ i ∈ scene.stream.instructions, '\n' ∉ i.mnemonic.toList)
    (hr : ∀ text ∈ Tree.remarks t, '\n' ∉ text.toList)
    (hy : ∀ a name, scene.symbols.nameAt? a = some name → '\n' ∉ name.toList)
    (hs : ∀ slot ∈ scene.slots.slots, '\n' ∉ slot.name.toList) :
    (∀ line ∈ (Line.renderAll scene style
        (Tree.lines scene.stream fused depth t)).toList.splitOn '\n',
      ∀ a, fused.contains a = true →
        ¬ (Hex.literal a.toNat ++ ": ").toList <+: line.dropWhile Char.isWhitespace) ∧
    ∀ a, (∃ line ∈ (Line.renderAll scene style
        (Tree.lines scene.stream fused depth t)).toList.splitOn '\n',
          (Hex.literal a.toNat ++ ": ").toList <+: line.dropWhile Char.isWhitespace) ↔
      ∃ line ∈ Tree.lines scene.stream fused depth t, ∃ i h,
        line.content = .statement i h ∧ i.address = a := by
  have hscene : scene.Spelling (· ≠ '\n') :=
    { slots := fun slot h => Spelled.of_not_mem (hs slot h)
      symbols := fun a name h => Spelled.of_not_mem (hy a name h)
      mnemonics := fun i h => Spelled.of_not_mem (hm i h) }
  have hp := exists_isPrefix_iff scene fused depth hn t fun c hc => (hi c hc).1
  rw [splitOn_renderAll_lines scene fused depth hn (fun hc => (hi '\n' hc).2 rfl) hscene hr]
  refine ⟨?_, hp⟩
  intro cs hl a ha hpre
  obtain ⟨line, hm, i, h, hst, rfl⟩ := (hp a).mp ⟨cs, hl, hpre⟩
  have hd := Tree.drawn_lines t depth (List.Subset.refl _) hm
  rw [hst] at hd
  rw [hd.2] at ha
  exact Bool.false_ne_true ha

def comparedMove : Scene :=
  let a := .register (.general .x86_64 0 32)
  let number n := .immediate (.signed n 32)
  ⟨.x86_64, ⟨[⟨0x1000, 3, [], .compare, "cmp", [a, number 1], .sequential⟩,
    ⟨0x1003, 3, [], .move, "mov", [a, number 2], .sequential⟩], rfl⟩,
    ⟨"var", [⟨1, -8, "var1", 4⟩]⟩, .ofList [("f", 0x2000)]⟩

theorem not_isPrefix_of_fused_comparedMove :
    (Marks.empty.insert 0x1000).contains 0x1000 = true ∧
    ∀ line ∈ (Line.renderAll comparedMove ⟨"    ", true, none⟩ (Tree.lines comparedMove.stream
        (Marks.empty.insert 0x1000) 0 [.block ⟨0, 2⟩])).toList.splitOn '\n',
      ¬ "0x1000: ".toList <+: line.dropWhile Char.isWhitespace := by
  have hy : ∀ a name, comparedMove.symbols.nameAt? a = some name → '\n' ∉ name.toList := by
    intro a name hn
    have hs : comparedMove.symbols.nameAt? a = if a = 0x2000 then some "f" else none :=
      Table.get?_insert ..
    rw [hs] at hn
    split at hn
    · cases hn
      decide
    · cases hn
  have hi : ∀ c ∈ "    ".toList, c.isWhitespace = true ∧ c ≠ '\n' := by
    intro c hc
    have he : c = ' ' := List.eq_of_mem_replicate (n := 4) hc
    subst he
    decide
  have hm : (Marks.empty.insert 0x1000).contains 0x1000 = true := by decide
  refine ⟨hm, ?_⟩
  intro line hl
  exact (not_isPrefix_of_fused comparedMove ⟨"    ", true, none⟩ (Marks.empty.insert 0x1000) 0
    [.block ⟨0, 2⟩] rfl hi (by decide) (by decide) hy (by decide)).1 line hl 0x1000 hm

end Tree

end Pseudocode
