import Pseudocode.Proofs.Comments
import Pseudocode.Proofs.Line.Nesting
import Pseudocode.Proofs.Text.Braces

namespace Pseudocode

def isInline (c : Char) : Bool :=
  c != '\n' && c != '\x7b' && c != '\x7d'

theorem isInline_of_isPlain (c : Char) (hc : isPlain c = true) : isInline c = true := by
  have hn := ne_newline_of_isPrintable c (isPrintable_of_isPlain hc)
  simp only [isPlain, Bool.and_eq_true] at hc
  simp [isInline, hn, hc.1.2, hc.2]

theorem not_mem_of_isInline {cs : List Char} (h : ∀ c ∈ cs, isInline c = true) :
    '\n' ∉ cs ∧ '\x7b' ∉ cs ∧ '\x7d' ∉ cs := by
  refine ⟨?_, ?_, ?_⟩
  all_goals
    intro hm
    have hc := h _ hm
    revert hc
    decide

theorem Content.initial?_eq_brace_iff (content : Content) :
    content.initial? = some '\x7d' ↔ content.closes = true := by
  cases content with
  | openIf chained tested c => cases chained <;> simp [initial?, closes]
  | openLoop infinite => cases infinite <;> simp [initial?, closes]
  | declaration slot =>
    rw [initial?]
    split <;> simp [closes]
  | _ => simp [initial?, closes]

/-- The braces of a line stand at its ends. -/
theorem Scene.toList_wording (scene : Scene) (colors : Option Colors) (content : Content) :
    (scene.wording colors content).toList =
      (if content.closes then ['\x7d'] else []) ++
        (String.join ((scene.words content).map (Span.render colors))).toList ++
        if content.opens then ['\x7b'] else [] := by
  cases content with
  | openLoop infinite =>
    cases infinite <;>
      simp [wording, Scene.content, words, Content.closes, Content.opens, Span.render]
  | openIf | openElse | close | openFunction =>
    simp [wording, Scene.content, words, Content.closes, Content.opens, Span.render]
  | _ => simp [wording, words, Content.closes, Content.opens]

theorem exists_of_map_concat_nil {α : Type} {f : α → List Char} {xs : List α}
    {before after : List (List Char)} {line : List Char}
    (he : xs.map f ++ [[]] = before ++ line :: after) (hn : line ≠ []) :
    ∃ front x back, xs = front ++ x :: back ∧ before = front.map f ∧ line = f x := by
  obtain rfl | ⟨rest, last, rfl⟩ := List.eq_nil_or_concat' after
  · exact absurd (List.append_inj_right' he rfl) (by simp [Ne.symm hn])
  · rw [← List.cons_append, ← List.append_assoc] at he
    obtain ⟨front, tail, rfl, hf, ht⟩ := List.map_eq_append_iff.mp (List.append_inj_left' he rfl)
    obtain ⟨x, back, rfl, hx, -⟩ := List.map_eq_cons_iff.mp ht
    exact ⟨front, x, back, rfl, hf.symm, hx.symm⟩

namespace Line

theorem nested_select (style : Style) {lines : List Line} {m n : Nat} (h : Nested m lines n) :
    Nested m (style.select lines) n := by
  rw [Style.select]
  split
  · exact h
  · apply h.filter
    intro line _ hc
    cases hl : line.content <;> simp_all [Content.isComment, Content.closes, Content.opens]

variable {scene : Scene} {style : Style} {line : Line}
  (hi : ∀ c ∈ style.indent.toList, c.isWhitespace = true ∧ c ≠ '\n')
  (hscene : scene.Spelling (isInline · = true))

include hi in
theorem brace_not_mem_indentation (d : Nat) :
    '\x7b' ∉ (String.join (List.replicate d style.indent)).toList ∧
      '\x7d' ∉ (String.join (List.replicate d style.indent)).toList := by
  constructor
  all_goals
    intro hm
    have hc := (hi _ (mem_indentation hm)).1
    revert hc
    decide

include hscene in
theorem isInline_words (hc : line.content.Spelled (isInline · = true) scene)
    (colors : Option Colors) :
    ∀ c ∈ (String.join ((scene.words line.content).map (Span.render colors))).toList,
      isInline c = true :=
  Span.spelled_join isInline_of_isPlain (by decide) colors
    (Scene.spelled_words isInline_of_isPlain hscene hc)

include hi hscene

theorem leads_characters (hc : line.content.Spelled (isInline · = true) scene) {m n : Nat}
    (h : line.Nests m n) : Leads m n (line.characters scene style) := by
  obtain ⟨d, rfl, rfl, -⟩ := h
  obtain ⟨ho, hb⟩ := brace_not_mem_indentation hi line.depth
  obtain ⟨-, hwo, hwb⟩ := not_mem_of_isInline (isInline_words hscene hc style.colors)
  have hclose : Leads (d + line.content.closes.toNat) d
      (if line.content.closes then ['\x7d'] else []) := by
    cases line.content.closes with
    | true => exact .closing d
    | false => exact .of_not_mem d List.not_mem_nil List.not_mem_nil
  have hopen : Leads d (d + line.content.opens.toNat)
      (if line.content.opens then ['\x7b'] else []) := by
    cases line.content.opens with
    | true => exact .opening d
    | false => exact .of_not_mem d List.not_mem_nil List.not_mem_nil
  rw [characters, Scene.toList_wording]
  exact (Leads.of_not_mem _ ho hb).append ((hclose.append (.of_not_mem d hwo hwb)).append hopen)

theorem newline_not_mem_of_isInline (hc : line.content.Spelled (isInline · = true) scene) :
    '\n' ∉ line.characters scene style := by
  obtain ⟨hw, -, -⟩ := not_mem_of_isInline (isInline_words hscene hc style.colors)
  rw [characters, Scene.toList_wording]
  simp only [List.mem_append, not_or]
  refine ⟨fun hm => (hi '\n' (mem_indentation hm)).2 rfl, ⟨?_, hw⟩, ?_⟩
  · split <;> decide
  · split <;> decide

variable {lines : List Line} (hl : ∀ line ∈ lines, line.content.Spelled (isInline · = true) scene)
include hl

theorem leads_flatMap {m n : Nat} (h : Nested m lines n) :
    Leads m n ((lines.map (characters scene style)).flatMap (· ++ ['\n'])) := by
  induction lines generalizing m with
  | nil =>
    subst h
    exact .of_not_mem m List.not_mem_nil List.not_mem_nil
  | cons line lines ih =>
    obtain ⟨k, hk, hr⟩ := h
    have hc := leads_characters hi hscene (hl line List.mem_cons_self) hk
    have hn : Leads k k ['\n'] := .of_not_mem k (by decide) (by decide)
    exact (hc.append hn).append (ih (fun l h => hl l (List.mem_cons_of_mem line h)) hr)

theorem openBraces_flatten {n : Nat} (h : Nested 0 lines n) :
    (n : Int) = openBraces (lines.map (characters scene style)).flatten := by
  have ht := (leads_flatMap hi hscene hl h).total
  rw [← openBraces_flatMap_newline, ht]
  exact Int.zero_add _

/-- The first character behind the indentation tells how deep a line stands. -/
theorem indented_characters {before after : List Line} {line : Line}
    (he : lines = before ++ line :: after) {n : Nat} (h : Nested 0 lines n)
    (hb : line.content ≠ .blank) :
    ∃ c cs, line.characters scene style =
        (String.join (List.replicate line.depth style.indent)).toList ++ c :: cs ∧
      c.isWhitespace = false ∧
      (line.depth : Int) = openBraces ((before.map (characters scene style)).flatten ++
        if c = '\x7d' then ['\x7d'] else []) := by
  subst he
  obtain ⟨k, hk, m, ⟨d, rfl, -, hd⟩, -⟩ := (nested_append before (line :: after)).mp h
  have hd := hd.resolve_left hb
  have ho := openBraces_flatten hi hscene (fun l h => hl l (List.mem_append_left _ h)) hk
  obtain ⟨c, cs, hcs, hw, hc⟩ := scene.exists_wording_eq_cons style.colors hb
  have hclose : line.content.closes = true ↔ c = '\x7d' := by
    rw [← line.content.initial?_eq_brace_iff]
    obtain hc | ⟨hc, rfl⟩ := hc
    · simp [hc]
    · simp [hc]
  refine ⟨c, cs, by rw [characters, hcs], hw, ?_⟩
  rw [openBraces_append, ← ho, hd]
  by_cases hx : c = '\x7d'
  · have hone : openBraces ['\x7d'] = -1 := by decide
    rw [if_pos hx, hclose.mpr hx, hone, Bool.toNat_true]
    omega
  · have hzero : openBraces [] = 0 := rfl
    rw [if_neg hx, Bool.eq_false_iff.mpr fun h => hx (hclose.mp h), hzero, Bool.toNat_false]
    omega

theorem wellNested_renderAll (h : Nested 0 lines 0) :
    WellNested style.indent (renderAll scene style lines).toList := by
  have hs : ∀ line ∈ style.select lines, line.content.Spelled (isInline · = true) scene :=
    fun line hm => hl line (Style.mem_select.mp hm).1
  have hn := nested_select style h
  have ht := leads_flatMap hi hscene hs hn
  rw [← toList_renderAll] at ht
  constructor
  · have h0 := ht.total
    omega
  · intro front hf
    have h0 := ht.opened front hf
    omega
  · intro before line after he hw
    have hb : ∀ line ∈ style.select lines, '\n' ∉ line.characters scene style := fun line hm =>
      newline_not_mem_of_isInline hi hscene (hs line hm)
    rw [splitOn_renderAll hb] at he
    obtain ⟨front, l, back, hsel, rfl, rfl⟩ := exists_of_map_concat_nil he (by
      rintro rfl
      obtain ⟨c, hc, -⟩ := hw
      cases hc)
    have hne : l.content ≠ .blank := by
      intro hbl
      obtain ⟨c, hc, hf⟩ := hw
      rw [characters, hbl] at hc
      have hm : c ∈ (String.join (List.replicate l.depth style.indent)).toList := by
        simpa [Scene.wording, Scene.content] using hc
      rw [(hi c (mem_indentation hm)).1] at hf
      cases hf
    obtain ⟨c, cs, hcs, hcw, hd⟩ := indented_characters hi hscene hs hsel hn hne
    exact ⟨l.depth, c, cs, hcs, hcw, hd⟩

end Line

namespace SlotTable

/-- The table comes from accesses and suffixes, and its stem and the suffixes are spelled with
`p`. -/
inductive Spelled (p : Char → Prop) : SlotTable → Prop
  | empty {stem : String} (hs : Pseudocode.Spelled p stem) : Spelled p (.empty stem)
  | discover {t : SlotTable} (ht : Spelled p t) (displacement : Int64) (size : UInt8) :
    Spelled p (t.discover displacement size)
  | appendSuffix {t : SlotTable} (ht : Spelled p t) (displacement : Int64) {suffix : String}
    (hs : Pseudocode.Spelled p suffix) : Spelled p (t.appendSuffix displacement suffix)

theorem Spelled.names {p : Char → Prop} (hp : ∀ c, isPlain c = true → p c) {t : SlotTable}
    (h : t.Spelled p) :
    Pseudocode.Spelled p t.stem ∧ ∀ slot ∈ t.slots, Pseudocode.Spelled p slot.name := by
  induction h with
  | empty hs => exact ⟨hs, fun _ hm => absurd hm List.not_mem_nil⟩
  | @discover t ht d size ih =>
    by_cases hd : t.contains d = true
    · rwa [discover_of_contains t d size hd]
    · rw [discover_of_not_contains t d size hd]
      refine ⟨ih.1, fun slot hm => ?_⟩
      obtain hm | hm := List.mem_append.mp hm
      · exact ih.2 slot hm
      · rw [List.mem_singleton.mp hm]
        exact ih.1.append (Spelled.repr hp _)
  | @appendSuffix t ht d suffix hs ih =>
    rw [SlotTable.appendSuffix]
    split
    · refine ⟨ih.1, fun slot hm => ?_⟩
      obtain ⟨old, ho, rfl⟩ := List.mem_map.mp hm
      split
      · exact (ih.2 old ho).append hs
      · exact ih.2 old ho
    · exact ih

end SlotTable

namespace Tree

/-- With an indentation of blanks, and if neither a brace nor a line break is in a name, a comment
or a mnemonic, the text of a function is well nested, and so is the text of its tree alone, with or
without comments and in any colours. -/
theorem wellNested_render (scene : Scene) (fused : Marks) (name : String) (t : Tree)
    (style : Style) (hi : ∀ c ∈ style.indent.toList, c.isWhitespace = true ∧ c ≠ '\n')
    (hn : ∀ c ∈ name.toList, isInline c = true)
    (hm : ∀ i ∈ scene.stream.instructions, ∀ c ∈ i.mnemonic.toList, isInline c = true)
    (hr : ∀ text ∈ Tree.remarks t, ∀ c ∈ text.toList, isInline c = true)
    (hy : ∀ a symbol, scene.symbols.nameAt? a = some symbol →
      ∀ c ∈ symbol.toList, isInline c = true)
    (hs : scene.slots.Spelled (isInline · = true)) :
    WellNested style.indent (Line.renderAll scene style
      (Line.ofFunction scene.stream ⟨fused, scene.slots⟩ name t)).toList ∧
    WellNested style.indent (Line.renderAll scene style
      (Tree.lines scene.stream fused 0 t)).toList := by
  have hscene : scene.Spelling (isInline · = true) :=
    ⟨(hs.names isInline_of_isPlain).2, hy, hm⟩
  constructor
  · exact Line.wellNested_renderAll hi hscene (Scene.spelled_ofFunction hr fused hn)
      (Line.nested_ofFunction scene.stream ⟨fused, scene.slots⟩ name t)
  · exact Line.wellNested_renderAll hi hscene (Scene.spelled_lines hr fused 0)
      (Tree.nested_lines scene.stream fused t 0)

def ladderLoop : Tree :=
  [.node (.loop [.node (.ifElse ⟨1, .equal, some 0⟩ [.block ⟨1, 2⟩]
    [.node (.ifElse ⟨1, .less, none⟩ [.node (.jump 0x1000)] [.block ⟨0, 1⟩])])] true none)]

def canarySlot : SlotTable :=
  ((SlotTable.empty "var").discover (-8) 4).appendSuffix (-8) "_canary"

theorem wellNested_render_ladderLoop :
    canarySlot.Spelled (isInline · = true) ∧
    Line.renderAll ⟨.x86_64, comparedMove.stream, canarySlot, .empty⟩ ⟨"  ", false, none⟩
        (Line.ofFunction comparedMove.stream ⟨.empty, canarySlot⟩ "f" ladderLoop) =
      "function f \x7b\n  int32_t var1_canary;  // [rbp - 0x8]\n\n  infiniteloop \x7b\n" ++
      "    if eax != 0x1 \x7b\n      0x1003: eax = 0x2\n    \x7d\n    else if >= \x7b\n" ++
      "      jmp 0x1000\n    \x7d else \x7b\n      0x1000: cmp eax, 0x1\n    \x7d\n  \x7d\n\x7d\n" ∧
    WellNested "  " (Line.renderAll ⟨.x86_64, comparedMove.stream, canarySlot, .empty⟩
      ⟨"  ", false, none⟩
      (Line.ofFunction comparedMove.stream ⟨.empty, canarySlot⟩ "f" ladderLoop)).toList := by
  have hs : canarySlot.Spelled (isInline · = true) := by
    refine .appendSuffix (.discover (.empty ?_) (-8) 4) (-8) ?_
    · exact Spelled.of_all (fun _ hc => hc) (by decide)
    · exact Spelled.of_all (fun _ hc => hc) (by decide)
  have hi : ∀ c ∈ "  ".toList, c.isWhitespace = true ∧ c ≠ '\n' := by simp
  have hn : "f".toList.all isInline = true := by decide
  have hm : (comparedMove.stream.instructions.all (·.mnemonic.toList.all isInline)) = true := by
    decide
  refine ⟨hs, by decide +kernel, ?_⟩
  exact (wellNested_render ⟨.x86_64, comparedMove.stream, canarySlot, .empty⟩ .empty "f" ladderLoop
    ⟨"  ", false, none⟩ hi (List.all_eq_true.mp hn)
    (fun i h => List.all_eq_true.mp (List.all_eq_true.mp hm i h)) (by decide)
    (fun _ _ h => nomatch h) hs).1

end Tree

end Pseudocode
