import Pseudocode.Proofs.Line.Text

namespace Pseudocode

section

variable {p : Char → Prop} (hp : ∀ c, isPlain c = true → p c) (he : p '\x1b')
include hp he

theorem Spelled.styled (code : Nat) {text : String} (ht : Spelled p text) :
    Spelled p (Terminal.styled code text) := by
  have hs : ∀ {s : String}, s.toList.all (fun c => c == '\x1b' || isPlain c) = true →
      Spelled p s := by
    intro s
    apply Spelled.of_all
    intro c hc
    obtain hc | hc := Bool.or_eq_true_iff.mp hc
    · rw [eq_of_beq hc]
      exact he
    · exact hp c hc
  exact ((((hs (by decide)).append (Spelled.repr hp code)).append (hs (by decide))).append
    ht).append (hs (by decide))

theorem Span.spelled_painted (colors : Option Colors) {span : Span} (hs : span.Spelled p) :
    Pseudocode.Spelled p (span.render colors) := by
  cases span with
  | text s => exact hs
  | address a =>
    have hl := Spelled.literal hp a.toNat
    cases colors with
    | none => exact hl
    | some colors =>
      rw [render, Colors.paint]
      split
      · exact Spelled.styled hp he _ hl
      · exact hl

theorem Span.spelled_join (colors : Option Colors) {spans : List Span}
    (hs : ∀ span ∈ spans, span.Spelled p) :
    Pseudocode.Spelled p (String.join (spans.map (Span.render colors))) := by
  apply Spelled.join
  intro t ht
  obtain ⟨span, hm, rfl⟩ := List.mem_map.mp ht
  exact Span.spelled_painted hp he colors (hs span hm)

end

namespace Content

theorem initial?_eq_hash_iff (content : Content) :
    content.initial? = some '#' ↔ content.isComment = true := by
  cases content with
  | openIf chained tested c => cases chained <;> simp [initial?, isComment]
  | openLoop infinite => cases infinite <;> simp [initial?, isComment]
  | declaration slot =>
    rw [initial?]
    split <;> simp [isComment]
  | _ => simp [initial?, isComment]

theorem initial?_eq_none_iff (content : Content) :
    content.initial? = none ↔ content = .blank := by
  cases content with
  | declaration slot =>
    rw [initial?]
    split <;> simp
  | _ => simp [initial?]

theorem isWhitespace_initial? {content : Content} {c : Char} (hc : content.initial? = some c) :
    c.isWhitespace = false := by
  cases content with
  | openIf chained tested condition => cases chained <;> cases hc <;> decide
  | openLoop infinite => cases infinite <;> cases hc <;> decide
  | declaration slot =>
    rw [initial?] at hc
    split at hc <;> cases hc <;> decide
  | blank => cases hc
  | _ => cases hc; decide

end Content

namespace Scene

variable (scene : Scene) (colors : Option Colors)

theorem head?_painted (content : Content) :
    (scene.wording colors content).toList.head? = content.initial? ∨
      content.initial? = some '0' ∧
        (scene.wording colors content).toList.head? = some '\x1b' := by
  cases content with
  | statement i h =>
    have ha : ((Span.address i.address).render colors).toList.head? = some '0' ∨
        ((Span.address i.address).render colors).toList.head? = some '\x1b' := by
      have hl := congrArg List.head? (Hex.toList_literal i.address.toNat)
      cases colors with
      | none => exact .inl hl
      | some colors =>
        rw [Span.render, Colors.paint]
        split
        · exact .inr (by simp [Terminal.styled])
        · exact .inl hl
    have hw : (scene.wording colors (.statement i h)).toList.head? =
        ((Span.address i.address).render colors).toList.head? := by
      rw [wording, Scene.content, String.toList_join]
      obtain ha | ha := ha <;> simp [ha]
    rw [hw]
    exact ha.imp id fun ha => ⟨rfl, ha⟩
  | openIf chained tested c =>
    refine .inl ?_
    rw [wording, Scene.content]
    cases chained <;> simp [Span.render, Content.initial?]
  | openLoop infinite =>
    refine .inl ?_
    rw [wording, Scene.content]
    cases infinite <;> simp [Span.render, Content.initial?]
  | declaration slot => exact .inl (scene.head?_wording (.declaration slot))
  | blank => exact .inl rfl
  | _ => exact .inl (by simp [wording, Scene.content, Span.render, Content.initial?])

/-- Every line but the blank one starts with a character that is no blank. -/
theorem exists_wording_eq_cons {content : Content} (hb : content ≠ .blank) :
    ∃ c cs, (scene.wording colors content).toList = c :: cs ∧ c.isWhitespace = false ∧
      (content.initial? = some c ∨ content.initial? = some '0' ∧ c = '\x1b') := by
  have hi : content.initial? ≠ none := fun hn => hb (content.initial?_eq_none_iff.mp hn)
  obtain ⟨c, hc⟩ := Option.ne_none_iff_exists'.mp hi
  obtain hh | ⟨h0, hh⟩ := scene.head?_painted colors content
  · rw [hc] at hh
    obtain ⟨cs, hcs⟩ := List.head?_eq_some_iff.mp hh
    exact ⟨c, cs, hcs, Content.isWhitespace_initial? hc, .inl hc⟩
  · obtain ⟨cs, hcs⟩ := List.head?_eq_some_iff.mp hh
    exact ⟨'\x1b', cs, hcs, by decide, .inr ⟨h0, rfl⟩⟩

end Scene

end Pseudocode
