import Pseudocode.Text.Hex

namespace Pseudocode

theorem exists_of_mem_toDigits {b n : Nat} {c : Char} (hb : 1 < b) (hc : c ∈ Nat.toDigits b n) :
    ∃ d < b, c = Nat.digitChar d := by
  induction n using Nat.strongRecOn with
  | ind n ih =>
    rw [Nat.toDigits_eq_if hb] at hc
    split at hc
    next hn => exact ⟨n, hn, List.mem_singleton.mp hc⟩
    next hn =>
      obtain hc | hc := List.mem_append.mp hc
      · exact ih (n / b) (Nat.div_lt_self (by omega) hb) hc
      · exact ⟨n % b, Nat.mod_lt n (by omega), List.mem_singleton.mp hc⟩

theorem eq_of_repr_eq {m n : Nat} (h : Nat.repr m = Nat.repr n) : m = n := by
  have hn := congrArg (fun text => Nat.ofDigitChars 10 text.toList 0) h
  simpa only [Nat.toList_repr, Nat.ofDigitChars_ten_toDigits] using hn

namespace Hex

theorem digitChar_injective {c d : Nat} (hc : c < 16) (hd : d < 16)
    (h : c.digitChar = d.digitChar) : c = d := by
  have hall : ∀ c < 16, ∀ d < 16, Nat.digitChar c = Nat.digitChar d → c = d := by decide
  exact hall c hc d hd h

theorem toDigits_injective {m n : Nat} (h : Nat.toDigits 16 m = Nat.toDigits 16 n) : m = n := by
  induction m using Nat.strongRecOn generalizing n with
  | ind m ih =>
    rw [Nat.toDigits_eq_if (n := m) (by decide), Nat.toDigits_eq_if (n := n) (by decide)] at h
    split at h
    next hm =>
      split at h
      next hn => exact digitChar_injective hm hn (List.cons.inj h).1
      next hn => exact absurd (List.append_eq_singleton_iff.mp h.symm) (by simp)
    next hm =>
      split at h
      next hn => exact absurd (List.append_eq_singleton_iff.mp h) (by simp)
      next hn =>
        -- The last digits agree and so do the digits before them.
        have hq := List.append_inj_left' h rfl
        have hr := List.append_inj_right' h rfl
        have hd := ih (m / 16) (by omega) hq
        have hl := digitChar_injective (by omega) (by omega) (List.cons.inj hr).1
        omega

theorem toList_digits (n : Nat) : (digits n).toList = Nat.toDigits 16 n :=
  String.toList_ofList

theorem toList_literal (n : Nat) : (literal n).toList = '0' :: 'x' :: Nat.toDigits 16 n := by
  rw [literal, String.toList_append, toList_digits]
  rfl

theorem literal_injective {m n : Nat} (h : literal m = literal n) : m = n := by
  have hl := congrArg String.toList h
  rw [toList_literal, toList_literal] at hl
  exact toDigits_injective (List.cons.inj (List.cons.inj hl).2).2

theorem signed_injective {m n : Int} (h : signed m = signed n) : m = n := by
  have hne : ∀ k l : Nat, "-" ++ literal k ≠ literal l := by
    intro k l h
    have hl := congrArg String.toList h
    rw [String.toList_append, toList_literal, toList_literal] at hl
    exact absurd (List.cons.inj hl).1 (by decide)
  rw [signed, signed] at h
  split at h <;> split at h
  · have ha := literal_injective ((String.append_right_inj "-").mp h)
    omega
  · exact absurd h (hne _ _)
  · exact absurd h.symm (hne _ _)
  · have ha := literal_injective h
    omega

theorem colon_not_mem_toDigits (n : Nat) : ':' ∉ Nat.toDigits 16 n := by
  intro hc
  obtain ⟨d, hd, h⟩ := exists_of_mem_toDigits (by decide) hc
  have hall : ∀ d < 16, ':' ≠ Nat.digitChar d := by decide
  exact hall d hd h

theorem takeWhile_toDigits (n : Nat) (cs : List Char) :
    (Nat.toDigits 16 n ++ ':' :: cs).takeWhile (· != ':') = Nat.toDigits 16 n := by
  have hn : ∀ c ∈ Nat.toDigits 16 n, (c != ':') = true := by
    intro c hc
    have hne : c ≠ ':' := by
      rintro rfl
      exact colon_not_mem_toDigits n hc
    simpa using hne
  rw [List.takeWhile_append_of_pos hn]
  simp

/-- A colon ends the number, whatever follows. -/
theorem eq_of_isPrefix {m n : Nat} {cs ds : List Char}
    (h : (literal m).toList ++ ':' :: cs <+: (literal n).toList ++ ':' :: ds) : m = n := by
  obtain ⟨rest, h⟩ := h
  rw [toList_literal, toList_literal] at h
  have ht := congrArg (List.takeWhile (· != ':')) (List.cons.inj (List.cons.inj h).2).2
  simp only [List.append_eq, List.append_assoc, List.cons_append, takeWhile_toDigits] at ht
  exact toDigits_injective ht

end Hex

end Pseudocode
