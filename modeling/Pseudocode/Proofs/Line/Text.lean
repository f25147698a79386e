import Pseudocode.Proofs.Line.Spelling

namespace Pseudocode

theorem splitOn_flatMap {ls : List (List Char)} (hl : ∀ l ∈ ls, '\n' ∉ l) :
    (ls.flatMap (· ++ ['\n'])).splitOn '\n' = ls ++ [[]] := by
  induction ls with
  | nil => rfl
  | cons l ls ih =>
    have hls : ∀ l ∈ ls, '\n' ∉ l := fun k hk => hl k (List.mem_cons_of_mem l hk)
    rw [List.flatMap_cons, List.append_assoc, List.singleton_append,
      List.splitOn_append_cons_self_of_not_mem (hl l List.mem_cons_self), ih hls,
      List.cons_append]

theorem dropWhile_indented {p : Char → Bool} {indentation : List Char} {c : Char} {cs : List Char}
    (hi : ∀ d ∈ indentation, p d = true) (hc : p c = false) :
    (indentation ++ c :: cs).dropWhile p = c :: cs := by
  rw [List.dropWhile_append_of_pos hi, List.dropWhile_cons_of_neg (by simp [hc])]

theorem Style.mem_select {style : Style} {lines : List Line} {line : Line} :
    line ∈ style.select lines ↔
      line ∈ lines ∧ (style.comments = true ∨ line.content.isComment = false) := by
  rw [select]
  cases style.comments with
  | true => simp
  | false => simp

def Scene.wording (scene : Scene) (colors : Option Colors) (content : Content) : String :=
  String.join ((scene.content content).map (Span.render colors))

def Line.characters (scene : Scene) (style : Style) (line : Line) : List Char :=
  (String.join (List.replicate line.depth style.indent)).toList ++
    (scene.wording style.colors line.content).toList

theorem Scene.spelled_wording {p : Char → Prop} (hp : ∀ c, isPrintable c = true → p c)
    {scene : Scene} (hscene : scene.Spelling p) {content : Content}
    (hc : content.Spelled p scene) : Spelled p (scene.wording none content) := by
  apply Spelled.join
  intro t ht
  obtain ⟨span, hs, rfl⟩ := List.mem_map.mp ht
  exact Span.spelled_render (fun c hc => hp c (isPrintable_of_isPlain hc))
    (spelled_content hp hscene hc span hs)

namespace Line

theorem mem_indentation {indent : String} {d : Nat} {c : Char}
    (hc : c ∈ (String.join (List.replicate d indent)).toList) : c ∈ indent.toList := by
  rw [String.toList_join] at hc
  obtain ⟨t, ht, hc⟩ := List.mem_flatMap.mp hc
  rwa [List.eq_of_mem_replicate ht] at hc

theorem spelled_characters {p : Char → Prop} (hp : ∀ c, isPrintable c = true → p c)
    {scene : Scene} {style : Style} {line : Line} (hn : style.colors = none)
    (hi : Spelled p style.indent) (hscene : scene.Spelling p)
    (hc : line.content.Spelled p scene) : ∀ c ∈ line.characters scene style, p c := by
  intro c hm
  rw [characters, hn] at hm
  obtain hm | hm := List.mem_append.mp hm
  · exact hi c (mem_indentation hm)
  · exact Scene.spelled_wording hp hscene hc c hm

theorem renderAll_append (scene : Scene) (style : Style) (front back : List Line) :
    renderAll scene style (front ++ back) =
      renderAll scene style front ++ renderAll scene style back := by
  have hs : style.select (front ++ back) = style.select front ++ style.select back := by
    rw [Style.select, Style.select, Style.select]
    split
    · rfl
    · exact List.filter_append ..
  rw [renderAll, hs, List.map_append, String.join_append]
  rfl

theorem toList_render (scene : Scene) (style : Style) (line : Line) :
    (line.render scene style).toList = line.characters scene style ++ ['\n'] := by
  rw [render, String.toList_append, String.toList_append]
  rfl

theorem toList_renderAll (scene : Scene) (style : Style) (lines : List Line) :
    (renderAll scene style lines).toList =
      ((style.select lines).map (characters scene style)).flatMap (· ++ ['\n']) := by
  rw [renderAll, String.toList_join, List.flatMap_map, List.flatMap_map]
  congr 1
  funext line
  exact toList_render scene style line

theorem splitOn_renderAll {scene : Scene} {style : Style} {lines : List Line}
    (hl : ∀ line ∈ style.select lines, '\n' ∉ line.characters scene style) :
    (renderAll scene style lines).toList.splitOn '\n' =
      (style.select lines).map (characters scene style) ++ [[]] := by
  rw [toList_renderAll]
  apply splitOn_flatMap
  intro l hm
  obtain ⟨line, hs, rfl⟩ := List.mem_map.mp hm
  exact hl line hs

end Line

/-- The character that a line without colours starts with. -/
def Content.initial? : Content → Option Char
  | .statement .. => some '0'
  | .remark _ | .echo _ => some '#'
  | .jump _ => some 'j'
  | .ifGoto .. => some 'i'
  | .andIf .. => some 'a'
  | .openIf chained _ _ => some (if chained then 'e' else 'i')
  | .openElse | .close => some '\x7d'
  | .openLoop infinite => some (if infinite then 'i' else 'l')
  | .openFunction _ => some 'f'
  | .declaration slot =>
    match slot.size.toNat with
    | 1 | 2 | 4 | 8 => some 'i'
    | _ => some 'u'
  | .blank => none

theorem Scene.head?_wording (scene : Scene) (content : Content) :
    (scene.wording none content).toList.head? = content.initial? := by
  cases content with
  | openIf chained tested c =>
    rw [wording, Scene.content]
    cases chained <;> simp [Span.render, Content.initial?]
  | openLoop infinite =>
    rw [wording, Scene.content]
    cases infinite <;> simp [Span.render, Content.initial?]
  | declaration slot =>
    rw [wording, Scene.content, declaration, slotType, Content.initial?]
    generalize slot.size.toNat = size
    split <;> simp [Span.render]
  | blank => rfl
  | _ => simp [wording, Scene.content, Span.render, Content.initial?, Hex.toList_literal]

end Pseudocode
