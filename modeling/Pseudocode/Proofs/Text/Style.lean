import Pseudocode.Text.Terminal

namespace Pseudocode.Terminal

/-- What is behind the style sequence that the characters start with: an escape, a bracket, digits
and the letter m. -/
def afterStyle? : List Char → Option (List Char)
  | '\x1b' :: '[' :: cs =>
    match cs.takeWhile Char.isDigit, cs.dropWhile Char.isDigit with
    | _ :: _, 'm' :: rest => some rest
    | _, _ => none
  | _ => none

theorem length_afterStyle? {cs rest : List Char} (h : afterStyle? cs = some rest) :
    rest.length < cs.length := by
  unfold afterStyle? at h
  split at h
  next cs =>
    split at h
    next tail _ hd =>
      cases h
      have hl := (List.dropWhile_suffix (l := cs) Char.isDigit).length_le
      rw [hd, List.length_cons] at hl
      simp only [List.length_cons]
      omega
    next => cases h
  next => cases h

/-- The characters that are left when all style sequences are deleted. -/
def unstyle (cs : List Char) : List Char :=
  match cs with
  | [] => []
  | c :: cs =>
    match _h : afterStyle? (c :: cs) with
    | some rest => unstyle rest
    | none => c :: unstyle cs
termination_by cs.length
decreasing_by
  · exact length_afterStyle? ‹_›
  · exact Nat.lt_succ_self cs.length

def unstyled (text : String) : String :=
  String.ofList (unstyle text.toList)

theorem unstyle_nil : unstyle [] = [] := by
  rw [unstyle]

theorem unstyle_cons {c : Char} (hc : c ≠ '\x1b') (cs : List Char) :
    unstyle (c :: cs) = c :: unstyle cs := by
  have hn : afterStyle? (c :: cs) = none := by
    unfold afterStyle?
    split
    next h => exact absurd (List.cons.inj h).1 hc
    next => rfl
  rw [unstyle]
  split
  next h =>
    rw [hn] at h
    cases h
  next => rfl

theorem unstyle_of_afterStyle? {cs rest : List Char} (h : afterStyle? cs = some rest) :
    unstyle cs = unstyle rest := by
  cases cs with
  | nil => cases h
  | cons c cs =>
    rw [unstyle]
    split
    next h' =>
      rw [h] at h'
      rw [Option.some.inj h']
    next h' =>
      rw [h] at h'
      cases h'

theorem unstyle_sequence (code : Nat) (rest : List Char) :
    unstyle ('\x1b' :: '[' :: (Nat.toDigits 10 code ++ 'm' :: rest)) = unstyle rest := by
  have hd : ∀ c ∈ Nat.toDigits 10 code, c.isDigit = true := by
    intro c hc
    exact Nat.isDigit_of_mem_toDigits (by decide) (by decide) hc
  have hm : 'm'.isDigit = false := by decide
  apply unstyle_of_afterStyle?
  obtain ⟨d, ds, hds⟩ := List.exists_cons_of_ne_nil (Nat.toDigits_ne_nil (b := 10) (n := code))
  rw [afterStyle?, List.takeWhile_append_of_pos hd, List.dropWhile_append_of_pos hd, hds]
  simp [hm]

/-- Deleting the style sequences turns `styled` into `plain` in front of any text. -/
def Unstyles (styled plain : List Char) : Prop :=
  ∀ rest, unstyle (styled ++ rest) = plain ++ unstyle rest

namespace Unstyles

variable {a b c d : List Char}

theorem eq (h : Unstyles a b) : unstyle a = b := by
  have hn := h []
  rwa [List.append_nil, unstyle_nil, List.append_nil] at hn

theorem append (h : Unstyles a b) (h' : Unstyles c d) : Unstyles (a ++ c) (b ++ d) := by
  intro rest
  rw [List.append_assoc, h, h', List.append_assoc]

theorem flatMap {α : Type} {f g : α → List Char} {l : List α}
    (h : ∀ x ∈ l, Unstyles (f x) (g x)) : Unstyles (l.flatMap f) (l.flatMap g) := by
  induction l with
  | nil => exact fun _ => rfl
  | cons x l ih =>
    rw [List.flatMap_cons, List.flatMap_cons]
    apply (h x List.mem_cons_self).append
    exact ih fun y hy => h y (List.mem_cons_of_mem x hy)

theorem of_not_mem {cs : List Char} (h : '\x1b' ∉ cs) : Unstyles cs cs := by
  induction cs with
  | nil => exact fun _ => rfl
  | cons c cs ih =>
    rw [List.mem_cons, not_or] at h
    intro rest
    rw [List.cons_append, unstyle_cons (Ne.symm h.1), ih h.2, List.cons_append]

theorem styled (code : Nat) {text : String} (h : '\x1b' ∉ text.toList) :
    Unstyles (Terminal.styled code text).toList text.toList := by
  have hs : (Terminal.styled code text).toList =
      '\x1b' :: '[' :: (Nat.toDigits 10 code ++ 'm' ::
        (text.toList ++ '\x1b' :: '[' :: (Nat.toDigits 10 0 ++ ['m']))) := by
    simp [Terminal.styled]
  intro rest
  rw [hs]
  simp only [List.cons_append, List.append_assoc, List.nil_append]
  rw [unstyle_sequence, of_not_mem h, unstyle_sequence]

end Unstyles

end Pseudocode.Terminal
