import Pseudocode.Line.Layout

namespace Pseudocode

namespace Content

def closes : Content → Bool
  | .openElse | .close => true
  | _ => false

def opens : Content → Bool
  | .openIf .. | .openElse | .openLoop _ | .openFunction _ => true
  | _ => false

end Content

namespace Line

/-- From `m` open braces the line leads to `n`, and it stands at the depth that is left between
closing one and opening one. On a blank line the depth does not show. -/
def Nests (line : Line) (m n : Nat) : Prop :=
  ∃ d, m = d + line.content.closes.toNat ∧ n = d + line.content.opens.toNat ∧
    (line.content = .blank ∨ line.depth = d)

def Nested : Nat → List Line → Nat → Prop
  | k, [], n => k = n
  | k, line :: lines, n => ∃ m, line.Nests k m ∧ Nested m lines n

theorem nested_append {k n : Nat} (as bs : List Line) :
    Nested k (as ++ bs) n ↔ ∃ m, Nested k as m ∧ Nested m bs n := by
  induction as generalizing k with
  | nil => simp [Nested]
  | cons line as ih =>
    simp only [List.cons_append, Nested, ih]
    constructor
    · rintro ⟨l, hl, m, ha, hb⟩
      exact ⟨m, ⟨l, hl, ha⟩, hb⟩
    · rintro ⟨m, ⟨l, hl, ha⟩, hb⟩
      exact ⟨l, hl, m, ha, hb⟩

namespace Nested

variable {k m n d : Nat} {as bs lines : List Line}

theorem append (ha : Nested k as m) (hb : Nested m bs n) : Nested k (as ++ bs) n :=
  (nested_append as bs).mpr ⟨m, ha, hb⟩

theorem single {line : Line} (h : line.Nests m n) : Nested m [line] n :=
  ⟨n, h, rfl⟩

variable (d)

theorem close : Nested (d + 1) [⟨d, .close⟩] d :=
  single ⟨d, rfl, rfl, .inr rfl⟩

theorem openElse : Nested (d + 1) [⟨d, .openElse⟩] (d + 1) :=
  single ⟨d, rfl, rfl, .inr rfl⟩

theorem openIf (chained : Bool) (tested : Option Nat) (c : Condition) :
    Nested d [⟨d, .openIf chained tested c⟩] (d + 1) :=
  single ⟨d, rfl, rfl, .inr rfl⟩

theorem openLoop (infinite : Bool) : Nested d [⟨d, .openLoop infinite⟩] (d + 1) :=
  single ⟨d, rfl, rfl, .inr rfl⟩

variable {d}

theorem of_flat (h : ∀ line ∈ lines, line.depth = d ∧ line.content.closes = false ∧
    line.content.opens = false) : Nested d lines d := by
  induction lines with
  | nil => rfl
  | cons line lines ih =>
    obtain ⟨hd, hc, ho⟩ := h line List.mem_cons_self
    refine ⟨d, ⟨d, by rw [hc]; rfl, by rw [ho]; rfl, .inr hd⟩, ?_⟩
    exact ih fun l hl => h l (List.mem_cons_of_mem line hl)

theorem filter {p : Line → Bool} (h : Nested k lines n)
    (hp : ∀ line ∈ lines, p line = false → line.content.closes = false ∧
      line.content.opens = false) : Nested k (lines.filter p) n := by
  induction lines generalizing k with
  | nil => exact h
  | cons line lines ih =>
    obtain ⟨m, hl, hr⟩ := h
    have hm := ih hr fun l hl => hp l (List.mem_cons_of_mem line hl)
    cases hb : p line with
    | true =>
      rw [List.filter_cons_of_pos hb]
      exact ⟨m, hl, hm⟩
    | false =>
      rw [List.filter_cons_of_neg (by simp [hb])]
      obtain ⟨hc, ho⟩ := hp line List.mem_cons_self hb
      obtain ⟨d, rfl, rfl, -⟩ := hl
      rwa [hc, ← ho]

end Nested

variable (s : Stream) (fused : Marks) (depth : Nat)

theorem nested_ofBlock (b : Block) : Nested depth (ofBlock s fused depth b) depth := by
  apply Nested.of_flat
  intro line hl
  obtain ⟨⟨i, h⟩, -, hi⟩ := List.mem_filterMap.mp hl
  dsimp only at hi
  split at hi
  · cases hi
  · cases hi
    exact ⟨rfl, rfl, rfl⟩

theorem nested_echoes (tested : Option Nat) (jump : Nat) :
    Nested depth (echoes s depth tested jump) depth := by
  apply Nested.of_flat
  intro line hl
  obtain ⟨i, -, rfl⟩ := List.mem_map.mp hl
  exact ⟨rfl, rfl, rfl⟩

end Line

open Line (Nested)

mutual

theorem Node.nested_lines (s : Stream) (fused : Marks) :
    ∀ (n : Node) (d : Nat) (a : Approach), Nested d (n.lines s fused d a) d
  | .seq items, d, _ => Tree.nested_lines s fused items d
  | .ifGoto test target, d, _ =>
    (Line.nested_echoes s d _ _).append (.single ⟨d, rfl, rfl, .inr rfl⟩)
  | .andIf test, d, _ =>
    (Line.nested_echoes s d _ _).append (.single ⟨d, rfl, rfl, .inr rfl⟩)
  | .ifElse test body otherwise, d, a => by
    have hb := Tree.nested_lines s fused body (d + 1)
    have ho := Tree.nested_lines s fused otherwise (d + 1)
    have hi := (Line.nested_echoes s d (a.tested test) test.jump).append
      (.openIf d a.isChained (a.tested test)
        (Conditional.view ⟨test, body, otherwise⟩ s).condition)
    have hf : Nested (d + 1) (if (Conditional.view ⟨test, body, otherwise⟩ s).swapped then
        Tree.lines s fused (d + 1) otherwise else Tree.lines s fused (d + 1) body) (d + 1) := by
      split
      · exact ho
      · exact hb
    rw [Node.lines]
    apply (hi.append hf).append
    split
    · exact .close d
    · exact ((Nested.openElse d).append ho).append (.close d)
    · exact (Nested.close d).append (nested_chainLines s fused otherwise d _)
  | .jump target, d, _ => .single ⟨d, rfl, rfl, .inr rfl⟩
  | .loop body infinite epilog, d, _ =>
    (((Nested.openLoop d infinite).append (Tree.nested_lines s fused body (d + 1))).append
      (.close d)).append (nested_epilogLines s fused epilog d)
  | .comment text, d, _ => .single ⟨d, rfl, rfl, .inr rfl⟩

theorem Tree.nested_lines (s : Stream) (fused : Marks) :
    ∀ (items : List Item) (d : Nat), Nested d (Tree.lines s fused d items) d
  | [], _ => rfl
  | .block b :: items, d =>
    (Line.nested_ofBlock s fused d b).append (Tree.nested_lines s fused items d)
  | .node n :: items, d =>
    (Node.nested_lines s fused n d .plain).append (Tree.nested_lines s fused items d)

theorem nested_epilogLines (s : Stream) (fused : Marks) :
    ∀ (epilog : Option Node) (d : Nat), Nested d (epilogLines s fused d epilog) d
  | none, _ => rfl
  | some n, d => Node.nested_lines s fused n d .plain

theorem nested_chainLines (s : Stream) (fused : Marks) :
    ∀ (items : List Item) (d : Nat) (leading : Option Nat),
      Nested d (chainLines s fused d leading items) d
  | [], _, _ => rfl
  | .block _ :: items, d, leading => nested_chainLines s fused items d leading
  | .node n :: _, d, leading => Node.nested_lines s fused n d (.chained leading)

end

namespace Line

theorem nested_ofFunction (s : Stream) (findings : Findings) (name : String) (t : Tree) :
    Nested 0 (ofFunction s findings name t) 0 := by
  have hd : Nested 1 (findings.slots.slots.map fun slot => ⟨1, .declaration slot⟩) 1 := by
    apply Nested.of_flat
    intro line hl
    obtain ⟨slot, -, rfl⟩ := List.mem_map.mp hl
    exact ⟨rfl, rfl, rfl⟩
  have hs : Nested 1 (if findings.slots.isEmpty then [] else
      (findings.slots.slots.map fun slot => ⟨1, .declaration slot⟩) ++ [⟨0, .blank⟩]) 1 := by
    split
    · rfl
    · exact hd.append (.single ⟨1, rfl, rfl, .inl rfl⟩)
  have ho : Nested 0 [⟨0, .openFunction name⟩] 1 := .single ⟨0, rfl, rfl, .inr rfl⟩
  exact ((ho.append hs).append (Tree.nested_lines s findings.fused t 1)).append (.close 0)

end Line

end Pseudocode
