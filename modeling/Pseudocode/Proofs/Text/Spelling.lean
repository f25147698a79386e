import Pseudocode.Proofs.Text.Hex

namespace Pseudocode

def isPrintable (c : Char) : Bool :=
  ' ' ≤ c && c ≤ '~'

/-- A printable character that is no brace. -/
def isPlain (c : Char) : Bool :=
  isPrintable c && c != '\x7b' && c != '\x7d'

theorem isPrintable_of_isPlain {c : Char} (hc : isPlain c = true) : isPrintable c = true := by
  rw [isPlain, Bool.and_eq_true, Bool.and_eq_true] at hc
  exact hc.1.1

def Spelled (p : Char → Prop) (s : String) : Prop :=
  ∀ c ∈ s.toList, p c

namespace Spelled

variable {p : Char → Prop} {s t sep : String} {l : List String}

theorem append (hs : Spelled p s) (ht : Spelled p t) : Spelled p (s ++ t) := by
  intro c hc
  rw [String.toList_append] at hc
  obtain hc | hc := List.mem_append.mp hc
  · exact hs c hc
  · exact ht c hc

theorem join (hl : ∀ s ∈ l, Spelled p s) : Spelled p (String.join l) := by
  intro c hc
  rw [String.toList_join] at hc
  obtain ⟨s, hs, hc⟩ := List.mem_flatMap.mp hc
  exact hl s hs c hc

theorem intercalate (hsep : Spelled p sep) (hl : ∀ s ∈ l, Spelled p s) :
    Spelled p (sep.intercalate l) := by
  induction l with
  | nil => exact fun c hc => absurd hc (by simp)
  | cons s l ih =>
    have hs := hl s List.mem_cons_self
    have ht := ih fun t ht => hl t (List.mem_cons_of_mem s ht)
    cases l with
    | nil => simpa using hs
    | cons t l =>
      rw [String.intercalate_cons_cons]
      exact (hs.append hsep).append ht

theorem of_not_mem {d : Char} (hd : d ∉ s.toList) : Spelled (· ≠ d) s := by
  rintro c hc rfl
  exact hd hc

theorem of_all {q : Char → Bool} (hq : ∀ c, q c = true → p c) (hs : s.toList.all q = true) :
    Spelled p s := by
  intro c hc
  exact hq c (List.all_eq_true.mp hs c hc)

variable (hp : ∀ c, isPlain c = true → p c)
include hp

theorem of_mem_toDigits {b n : Nat} {c : Char} (hb : 1 < b) (hle : b ≤ 16)
    (hc : c ∈ Nat.toDigits b n) : p c := by
  obtain ⟨d, hd, rfl⟩ := exists_of_mem_toDigits hb hc
  have hall : ∀ d < 16, isPlain (Nat.digitChar d) = true := by decide
  exact hp _ (hall d (by omega))

theorem literal (n : Nat) : Spelled p (Hex.literal n) := by
  refine append (of_all hp (by decide)) ?_
  intro c hc
  rw [Hex.toList_digits] at hc
  exact of_mem_toDigits hp (by decide) (by decide) hc

theorem signed (n : Int) : Spelled p (Hex.signed n) := by
  rw [Hex.signed]
  split
  · exact append (of_all hp (by decide)) (literal hp _)
  · exact literal hp _

theorem repr (n : Nat) : Spelled p (Nat.repr n) := by
  intro c hc
  rw [Nat.toList_repr] at hc
  exact of_mem_toDigits hp (by decide) (by decide) hc

end Spelled

end Pseudocode
