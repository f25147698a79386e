namespace Pseudocode

def openBraces (cs : List Char) : Int :=
  (cs.count '\x7b' : Int) - cs.count '\x7d'

structure WellNested (indent : String) (text : List Char) : Prop where
  closed : openBraces text = 0
  opened : ∀ front, front <+: text → 0 ≤ openBraces front
  /-- A line that is not blank starts with as many steps of indentation as there are open braces in
  front of it. If it starts with a closing brace, that brace counts. -/
  indented : ∀ before line after, text.splitOn '\n' = before ++ line :: after →
    (∃ c ∈ line, c.isWhitespace = false) →
    ∃ (d : Nat) (c : Char) (cs : List Char),
      line = (String.join (List.replicate d indent)).toList ++ c :: cs ∧
      c.isWhitespace = false ∧
      (d : Int) = openBraces (before.flatten ++ if c = '\x7d' then ['\x7d'] else [])

theorem openBraces_append (as bs : List Char) :
    openBraces (as ++ bs) = openBraces as + openBraces bs := by
  simp only [openBraces, List.count_append]
  omega

theorem openBraces_of_not_mem {cs : List Char} (ho : '\x7b' ∉ cs) (hc : '\x7d' ∉ cs) :
    openBraces cs = 0 := by
  rw [openBraces, List.count_eq_zero.mpr ho, List.count_eq_zero.mpr hc]
  rfl

theorem openBraces_flatMap_newline (ls : List (List Char)) :
    openBraces (ls.flatMap (· ++ ['\n'])) = openBraces ls.flatten := by
  induction ls with
  | nil => rfl
  | cons l ls ih =>
    have hn : openBraces ['\n'] = 0 := by decide
    rw [List.flatMap_cons, List.flatten_cons]
    simp only [openBraces_append, ih, hn]
    omega

/-- From `m` open braces the characters lead to `n`, and on the way none is closed that is not
open. -/
structure Leads (m n : Nat) (cs : List Char) : Prop where
  total : (n : Int) = m + openBraces cs
  opened : ∀ front, front <+: cs → 0 ≤ m + openBraces front

namespace Leads

variable {k m n : Nat} {as bs cs : List Char}

theorem append (ha : Leads k m as) (hb : Leads m n bs) : Leads k n (as ++ bs) where
  total := by
    have h := ha.total
    have h' := hb.total
    rw [openBraces_append]
    omega
  opened := by
    intro front hf
    -- The front ends in the first part, or it reaches into the second one.
    obtain hp | ⟨rest, rfl⟩ := List.prefix_or_prefix_of_prefix hf (List.prefix_append as bs)
    · exact ha.opened front hp
    · have h := ha.total
      have h' := hb.opened rest ((List.prefix_append_right_inj as).mp hf)
      rw [openBraces_append]
      omega

theorem of_not_mem (n : Nat) (ho : '\x7b' ∉ cs) (hc : '\x7d' ∉ cs) : Leads n n cs where
  total := by
    rw [openBraces_of_not_mem ho hc]
    omega
  opened := by
    intro front hf
    have hs := hf.subset
    rw [openBraces_of_not_mem (fun h => ho (hs h)) (fun h => hc (hs h))]
    omega

theorem singleton {c : Char} (h : (n : Int) = m + openBraces [c]) : Leads m n [c] where
  total := h
  opened := by
    intro front hf
    obtain rfl | ⟨rest, rfl, hr⟩ := List.prefix_cons_iff.mp hf
    · have hn : openBraces [] = 0 := rfl
      omega
    · rw [List.prefix_nil.mp hr]
      omega

theorem opening (n : Nat) : Leads n (n + 1) ['\x7b'] := by
  have h : openBraces ['\x7b'] = 1 := by decide
  exact singleton (by omega)

theorem closing (n : Nat) : Leads (n + 1) n ['\x7d'] := by
  have h : openBraces ['\x7d'] = -1 := by decide
  exact singleton (by omega)

end Leads

end Pseudocode
