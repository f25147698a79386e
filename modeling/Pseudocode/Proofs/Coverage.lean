import Pseudocode.Decompile
import Pseudocode.Proofs.Line.Drawn
import Pseudocode.Proofs.Line.Reading
import Pseudocode.Proofs.Line.Shown

namespace Pseudocode

open Line

def Recovered.scene (r : Recovered) (image : Image) (s : Stream) : Scene :=
  ⟨image.arch, s, r.findings.slots, image.symbols⟩

namespace Config

/-- The lines that make up the text of a decompiled function. -/
def lines (c : Config) (image : Image) (name : String) (s : Stream) (r : Recovered) : List Line :=
  (c.style image.edges s r.tree).select (Line.ofFunction s r.findings name r.tree)

theorem render_eq_join (c : Config) (image : Image) (name : String) (s : Stream) (r : Recovered) :
    c.render image name s r =
      String.join ((c.lines image name s r).map
        (Line.render (r.scene image s) (c.style image.edges s r.tree))) := rfl

theorem tree_decompile (c : Config) (symbols : Symbols) (s : Stream) (t : Tree) :
    (c.decompile symbols s t).tree = if c.runs .conditionFusion then t.fuse s else t := rfl

theorem fused_decompile (c : Config) (symbols : Symbols) (s : Stream) (t : Tree) :
    (c.decompile symbols s t).findings.fused =
      if c.runs .conditionFusion then ((Findings.start c.stem).fuse s t).fused else .empty := by
  cases hf : c.runs .conditionFusion <;> cases hs : c.runs .stackSlots <;>
    cases hc : c.runs .canaryGuard <;> simp [decompile, hf, hs, hc] <;> rfl

end Config

namespace Line

theorem handles_select (style : Style) (lines : List Line) :
    handles (style.select lines) = handles lines := by
  cases hc : style.comments with
  | true => simp [Style.select, hc]
  | false =>
    simp only [Style.select, hc, Bool.false_eq_true, if_false, handles, List.filterMap_filter]
    refine List.filterMap_congr fun line _ => ?_
    cases line.content <;> rfl

theorem handles_ofFunction (s : Stream) (findings : Findings) (name : String) (t : Tree) :
    handles (ofFunction s findings name t) = handles (Tree.lines s findings.fused 1 t) := by
  have hd : handles (findings.slots.slots.map fun slot => ⟨1, .declaration slot⟩) = [] := by
    rw [handles, List.filterMap_map]
    exact List.filterMap_eq_nil_iff.mpr fun slot _ => rfl
  unfold ofFunction
  cases findings.slots.isEmpty <;> simp [handles_cons, Content.shown?, hd]

end Line

namespace Config

theorem handles_lines (c : Config) (image : Image) (name : String) (s : Stream) (r : Recovered) :
    handles (c.lines image name s r) = handles (Tree.lines s r.findings.fused 1 r.tree) := by
  rw [lines, handles_select, handles_ofFunction]

theorem get?_of_statement {c : Config} {image : Image} {name : String} {s : Stream} {r : Recovered}
    {line : Line} {i : Instruction} {h : Nat} (hl : line ∈ c.lines image name s r)
    (hc : line.content = .statement i h) : s.get? h = some i := by
  have hm := (Style.mem_select.mp hl).1
  simp only [ofFunction, List.mem_append, List.mem_singleton] at hm
  obtain ((rfl | hm) | hm) | rfl := hm
  · cases hc
  · split at hm
    · cases hm
    · obtain hm | hm := List.mem_append.mp hm
      · obtain ⟨slot, -, rfl⟩ := List.mem_map.mp hm
        cases hc
      · rw [List.mem_singleton.mp hm] at hc
        cases hc
  · have hd := Tree.drawn_lines r.tree 1 (List.Subset.refl _) hm
    rw [hc] at hd
    exact hd.1
  · cases hc

section

variable {c : Config} {image : Image} {name : String} {s : Stream} {r : Recovered} {h : Nat}

theorem exists_shows {line : Line} (hl : line ∈ c.lines image name s r)
    (hs : line.content.shown? = some h) (hlt : h < s.length) :
    ∃ i, line.Shows (r.scene image s) (c.style image.edges s r.tree) h i := by
  obtain ⟨i, hi⟩ := Stream.exists_get? hlt
  have hc : line.content.instruction? s = some i := by
    cases hline : line.content with
    | statement j k =>
      have hj := get?_of_statement hl hline
      rw [hline] at hs
      cases hs
      exact hj.symm.trans hi
    | ifGoto tested c target | andIf tested c | openIf chained tested c =>
      rw [hline] at hs
      cases hs
      exact hi
    | _ =>
      rw [hline] at hs
      cases hs
  exact ⟨i, Line.shows _ hc hi hs⟩

theorem exists_shows_iff (c : Config) (image : Image) (name : String) (r : Recovered)
    (hlt : h < s.length) :
    (∃ line ∈ c.lines image name s r,
        ∃ i, line.Shows (r.scene image s) (c.style image.edges s r.tree) h i) ↔
      h ∈ handles (c.lines image name s r) := by
  constructor
  · rintro ⟨line, hl, i, hs⟩
    obtain ⟨text, hr, -⟩ := hs.reads
    exact List.mem_filterMap.mpr ⟨line, hl, hr.shown?⟩
  · intro hm
    obtain ⟨line, hl, hs⟩ := List.mem_filterMap.mp hm
    exact ⟨line, hl, exists_shows hl hs hlt⟩

theorem header_mem_lines {e nested : Conditional} (he : e ∈ Tree.conditionals r.tree)
    (hl : e.leading? s = some (h, nested)) (c : Config) (image : Image) (name : String) :
    ∃ d, nested.header s d (.chained (some h)) ∈ c.lines image name s r := by
  obtain ⟨d, a, hsub⟩ : ∃ d a, e.toNode.lines s r.findings.fused d a ⊆
      Tree.lines s r.findings.fused 1 r.tree := Tree.conditional_lines_subset r.tree 1 he
  have hm := hsub (Conditional.header_mem_lines_of_leading? hl _ d a)
  refine ⟨d, Style.mem_select.mpr ⟨?_, .inr rfl⟩⟩
  exact List.mem_append_left _ (List.mem_append_right _ hm)

/-- The header of a conditional behind a lone compare shows the compare, unless the conditional has
another comparison of its own. -/
theorem exists_header_shows_iff {e nested : Conditional} (he : e ∈ Tree.conditionals r.tree)
    (hl : e.leading? s = some (h, nested)) (c : Config) (image : Image) (name : String) :
    (∃ d i, nested.header s d (.chained (some h)) ∈ c.lines image name s r ∧
        (nested.header s d (.chained (some h))).Shows (r.scene image s)
          (c.style image.edges s r.tree) h i) ↔
      nested.test.comparison = none ∨ nested.test.comparison = some h := by
  have ht : ∀ d, (nested.header s d (.chained (some h))).content.shown? = some h ↔
      nested.test.comparison = none ∨ nested.test.comparison = some h := by
    intro d
    change nested.test.comparison.or (some h) = some h ↔ _
    cases nested.test.comparison <;> simp
  constructor
  · rintro ⟨d, i, -, hs⟩
    obtain ⟨text, hr, -⟩ := hs.reads
    exact (ht d).mp hr.shown?
  · intro hn
    obtain ⟨d, hm⟩ := header_mem_lines he hl c image name
    obtain ⟨-, b, -, hlone, rfl⟩ := Conditional.leading?_eq_some hl
    obtain ⟨-, i, hi, -⟩ := Block.of_isLoneCompare hlone
    obtain ⟨j, hj⟩ := exists_shows hm ((ht d).mpr hn) (Stream.get?_eq_some_lt hi)
    exact ⟨d, j, hm, hj⟩

end

end Config

namespace Tree

variable {s : Stream} {t : Tree}

theorem settled_fuse (stem : String) : ∀ c ∈ Tree.conditionals (t.fuse s),
    c.Settled s ((Findings.start stem).fuse s t).fused := by
  intro c hc h nested hl
  obtain ⟨ht, hf⟩ := Tree.leading_of_fuse hc hl
  obtain ⟨i, hi⟩ := Tree.get?_of_fusedAfter hf
  rw [ht, Stream.states_fuse (Stream.get?_eq_some_lt hi)]
  exact ⟨fun he => (nomatch he), fun hn => absurd hf hn⟩

theorem settled_of_attached_eq_nil (ha : t.attached = []) : ∀ c ∈ Tree.conditionals t,
    c.Settled s .empty := by
  intro c hc h nested hl
  have hn : nested.test.comparison = none := by
    rw [Option.eq_none_iff_forall_ne_some]
    intro k hk
    have hm : .comparison k ∈ nested.test.references := by simp [Test.references, hk]
    have hat : k ∈ t.attached := Reference.mem_attached.mpr
      (Tree.references_conditional t hc ((Conditional.references_of_leading? hl).2 hm))
    rw [ha] at hat
    cases hat
  exact ⟨fun _ => Conditional.states_leading hl, fun _ => hn⟩

theorem states_empty {h : Nat} (hlt : h < s.length) : s.states .empty h = true := by
  obtain ⟨i, hi⟩ := Stream.exists_get? hlt
  rw [Stream.states, hi]
  rfl

theorem handles_lines_fuse (hv : t.validate s = .ok ()) (ha : t.attached = [])
    (hn : t.covered.Nodup) (stem : String) (d : Nat) :
    handles (Tree.lines s ((Findings.start stem).fuse s t).fused d (t.fuse s)) = t.covered := by
  rw [Tree.handles_lines d (t.fuse s) (settled_fuse stem)]
  have hs : ∀ h ∈ Reference.covered (Tree.references t),
      s.states ((Findings.start stem).fuse s t).fused h = true ↔ h ∉ Tree.fusedAfter s none t :=
    fun h hh => Stream.states_fuse (lt_of_mem_covered hv hh) stem t
  have hr := Tree.shown_fuseAfter t none ha hn hs (by simp)
  rwa [Tree.taken_none, List.nil_append] at hr

theorem handles_lines_of_attached_eq_nil (hv : t.validate s = .ok ()) (ha : t.attached = [])
    (d : Nat) : handles (Tree.lines s .empty d t) = t.covered := by
  rw [Tree.handles_lines d t (settled_of_attached_eq_nil ha)]
  exact Reference.shown_eq_covered ha fun h hh => states_empty (lt_of_mem_covered hv hh)

theorem mem_handles_lines_fuse (hv : t.validate s = .ok ()) (stem : String) (d : Nat) {h : Nat}
    (hh : h ∈ t.covered) :
    h ∈ handles (Tree.lines s ((Findings.start stem).fuse s t).fused d (t.fuse s)) := by
  rw [Tree.handles_lines d (t.fuse s) (settled_fuse stem)]
  by_cases hf : h ∈ Tree.fusedAfter s none t
  · exact Reference.mem_shown_of_attached (Tree.mem_attached_of_fusedAfter t none hf)
  · have hc : h ∈ (t.fuse s).covered := by rwa [Tree.covered_fuse]
    exact Reference.mem_shown_of_covered hc
      ((Stream.states_fuse (lt_of_mem_covered hv hh) stem t).mpr hf)

/-- Without fusion, an instruction is shown if it is covered or attached more often than it is
overridden. -/
theorem mem_handles_lines_iff (hv : t.validate s = .ok ()) (d h : Nat) :
    h ∈ handles (Tree.lines s .empty d t) ↔
      (t.overridden s).count h < t.covered.count h + t.attached.count h := by
  have hc := Tree.count_handles_lines s d h t
  have hs : (Reference.shown (s.states .empty) (Tree.references t)).count h =
      t.covered.count h + t.attached.count h :=
    Reference.count_shown (fun k hk => states_empty (lt_of_mem_covered hv hk)) h
  rw [← List.count_pos_iff]
  omega

theorem overridden_subset_covered : t.overridden s ⊆ t.covered := by
  intro h hh
  obtain ⟨c, hc, ho⟩ := List.mem_flatMap.mp hh
  unfold Conditional.overridden at ho
  split at ho
  · cases ho
  · next k nested hl =>
    split at ho
    · cases ho
    · obtain ⟨⟨b, hb, hk⟩, -⟩ := Conditional.references_of_leading? hl
      rw [List.mem_singleton.mp ho]
      exact Reference.mem_covered.mpr ⟨b, Tree.references_conditional t hc hb, hk⟩

end Tree

namespace Config

variable (c : Config) (image : Image) (symbols : Symbols) (name : String) (s : Stream) (t : Tree)

/-- The text of a tree without comparisons shows every instruction of its blocks exactly once, as a
statement or as the test of a condition, and in the order of the blocks. -/
theorem handles_lines_eq_covered (hv : t.validate s = .ok ()) (ha : t.attached = [])
    (hd : t.blocks.Pairwise fun b d => List.Disjoint b.handles d.handles) :
    c.render image name s (c.decompile symbols s t) =
      String.join ((c.lines image name s (c.decompile symbols s t)).map
        (Line.render ((c.decompile symbols s t).scene image s)
          (c.style image.edges s (c.decompile symbols s t).tree))) ∧
    handles (c.lines image name s (c.decompile symbols s t)) = t.covered ∧
    ∀ line ∈ c.lines image name s (c.decompile symbols s t), ∀ h,
      line.content.shown? = some h → ∃ i, line.Shows ((c.decompile symbols s t).scene image s)
        (c.style image.edges s (c.decompile symbols s t).tree) h i := by
  have hh : handles (c.lines image name s (c.decompile symbols s t)) = t.covered := by
    rw [handles_lines, tree_decompile, fused_decompile]
    cases c.runs .conditionFusion with
    | true => exact Tree.handles_lines_fuse hv ha (Tree.nodup_covered hd) c.stem 1
    | false => exact Tree.handles_lines_of_attached_eq_nil hv ha 1
  refine ⟨render_eq_join .., hh, ?_⟩
  intro line hl h hs
  have hm : h ∈ t.covered := by
    rw [← hh]
    exact List.mem_filterMap.mpr ⟨line, hl, hs⟩
  exact exists_shows hl hs (Tree.lt_of_mem_covered hv hm)

def ladder : Stream :=
  let a := .register (.general .x86_64 0 32)
  let b := .register (.general .x86_64 3 32)
  let number n := .immediate (.signed n 32)
  ⟨[⟨0x1000, 3, [], .compare, "cmp", [a, number 1], .sequential⟩,
    ⟨0x1003, 2, [], .conditionalJump, "jle", [], .sequential⟩,
    ⟨0x1005, 3, [], .move, "mov", [a, number 2], .sequential⟩,
    ⟨0x1008, 3, [], .compare, "cmp", [b, number 5], .sequential⟩,
    ⟨0x100b, 2, [], .conditionalJump, "je", [], .sequential⟩,
    ⟨0x100d, 3, [], .move, "mov", [b, number 6], .sequential⟩], rfl⟩

/-- A conditional with a second one, which may carry a comparison, as its alternative. -/
def ladderTree (comparison : Option Nat) : Tree :=
  [.block ⟨0, 1⟩, .node (.ifElse ⟨1, .lessOrEqual, none⟩ [.block ⟨2, 3⟩]
    [.block ⟨3, 4⟩, .node (.ifElse ⟨4, .equal, comparison⟩ [.block ⟨5, 6⟩] [])])]

def ladderImage : Image := ⟨.x86_64, .empty, .empty⟩

theorem handles_lines_ladder :
    (ladderTree none).validate ladder = .ok () ∧ (ladderTree none).attached = [] ∧
    ((ladderTree none).blocks.Pairwise fun b d => List.Disjoint b.handles d.handles) ∧
    handles (default.lines ladderImage "f" ladder
      (default.decompile .empty ladder (ladderTree none))) = [0, 2, 3, 5] ∧
    default.render ladderImage "f" ladder (default.decompile .empty ladder (ladderTree none)) =
      "function f \x7b\n    # 0x1000: cmp eax, 0x1\n    # 0x1003: jle\n    if eax > 0x1 \x7b\n" ++
      "        0x1005: eax = 0x2\n    \x7d\n    # 0x1008: cmp ebx, 0x5\n    # 0x100b: je\n" ++
      "    else if ebx != 0x5 \x7b\n        0x100d: ebx = 0x6\n    \x7d\n\x7d\n" := by
  have hv : (ladderTree none).validate ladder = .ok () := rfl
  have ha : (ladderTree none).attached = [] := rfl
  have hd : (ladderTree none).blocks.Pairwise fun b d => List.Disjoint b.handles d.handles := by
    have hb : (ladderTree none).blocks = [⟨0, 1⟩, ⟨2, 3⟩, ⟨3, 4⟩, ⟨5, 6⟩] := rfl
    rw [hb]
    simp [Block.handles, Block.length]
  obtain ⟨ht, hh, -⟩ := handles_lines_eq_covered default ladderImage .empty "f" ladder
    (ladderTree none) hv ha hd
  refine ⟨hv, ha, hd, ?_, ?_⟩
  · rw [hh]
    rfl
  · rw [ht]
    decide +kernel

/-- The text of a valid tree shows every instruction of its blocks exactly when fusion runs or every
overridden comparison is covered or attached more often than it is overridden. The line of a chained
conditional shows the comparison in front of it exactly when fusion runs or the conditional comes
without another one. -/
theorem covered_subset_handles_iff (hv : t.validate s = .ok ()) :
    c.render image name s (c.decompile symbols s t) =
      String.join ((c.lines image name s (c.decompile symbols s t)).map
        (Line.render ((c.decompile symbols s t).scene image s)
          (c.style image.edges s (c.decompile symbols s t).tree))) ∧
    ((∀ h ∈ t.covered, ∃ line ∈ c.lines image name s (c.decompile symbols s t),
        ∃ i, line.Shows ((c.decompile symbols s t).scene image s)
          (c.style image.edges s (c.decompile symbols s t).tree) h i) ↔
      c.runs .conditionFusion = true ∨
        ∀ h ∈ t.overridden s,
          (t.overridden s).count h < t.covered.count h + t.attached.count h) ∧
    ((∀ e ∈ Tree.conditionals (c.decompile symbols s t).tree, ∀ h nested,
        e.leading? s = some (h, nested) →
          ∃ d i, nested.header s d (.chained (some h)) ∈
              c.lines image name s (c.decompile symbols s t) ∧
            (nested.header s d (.chained (some h))).Shows
              ((c.decompile symbols s t).scene image s)
              (c.style image.edges s (c.decompile symbols s t).tree) h i) ↔
      c.runs .conditionFusion = true ∨
        ∀ e ∈ Tree.conditionals t, ∀ h nested, e.leading? s = some (h, nested) →
          nested.test.comparison = none ∨ nested.test.comparison = some h) := by
  refine ⟨render_eq_join .., ?_, ?_⟩
  · have hshown : ∀ h ∈ t.covered, _ ↔ _ := fun h hh =>
      exists_shows_iff c image name (c.decompile symbols s t) (Tree.lt_of_mem_covered hv hh)
    rw [forall₂_congr hshown, handles_lines, tree_decompile, fused_decompile]
    cases c.runs .conditionFusion with
    | true => exact ⟨fun _ => .inl rfl, fun _ h => Tree.mem_handles_lines_fuse hv c.stem 1⟩
    | false =>
      simp only [Bool.false_eq_true, if_false, false_or, Tree.mem_handles_lines_iff hv]
      refine ⟨fun hall h hh => hall h (Tree.overridden_subset_covered hh), fun hall h hh => ?_⟩
      by_cases ho : h ∈ t.overridden s
      · exact hall h ho
      · -- What is not overridden is shown where it is covered.
        have hp := List.count_pos_iff.mpr hh
        rw [List.count_eq_zero_of_not_mem ho]
        omega
  · have hheader : ∀ e ∈ Tree.conditionals (c.decompile symbols s t).tree, ∀ h nested,
        e.leading? s = some (h, nested) → (_ ↔ _) := fun e he h nested hl =>
      exists_header_shows_iff he hl c image name
    rw [forall₂_congr fun e he => forall₃_congr (hheader e he), tree_decompile]
    cases c.runs .conditionFusion with
    | true =>
      refine ⟨fun _ => .inl rfl, fun _ e he h nested hl => .inr (Tree.leading_of_fuse he hl).1⟩
    | false => simp

theorem covered_subset_handles_ladder :
    (ladderTree (some 0)).validate ladder = .ok () ∧
    ∀ h ∈ (ladderTree (some 0)).covered, ∃ line ∈ default.lines ladderImage "f" ladder
        (default.decompile .empty ladder (ladderTree (some 0))),
      ∃ i, line.Shows ((default.decompile .empty ladder (ladderTree (some 0))).scene ladderImage
          ladder)
        (default.style ladderImage.edges ladder
          (default.decompile .empty ladder (ladderTree (some 0))).tree) h i := by
  have hv : (ladderTree (some 0)).validate ladder = .ok () := rfl
  exact ⟨hv, (covered_subset_handles_iff default ladderImage .empty "f" ladder
    (ladderTree (some 0)) hv).2.1.mpr (.inl rfl)⟩

def unfused : Config :=
  { default.disable .conditionFusion with comments := false }

/-- Without fusion the second comparison of the ladder, which is the only instruction with the number
five, is lost if the second conditional comes with the first one. -/
theorem covered_not_subset_handles_ladder :
    (ladderTree (some 0)).validate ladder = .ok () ∧ 3 ∈ (ladderTree (some 0)).covered ∧
    unfused.render ladderImage "f" ladder
        (unfused.decompile .empty ladder (ladderTree (some 0))) =
      "function f \x7b\n    0x1000: cmp eax, 0x1\n    if > \x7b\n        0x1005: eax = 0x2\n" ++
      "    \x7d\n    else if eax != 0x1 \x7b\n        0x100d: ebx = 0x6\n    \x7d\n\x7d\n" ∧
    ¬ Occurs "0x5" (unfused.render ladderImage "f" ladder
      (unfused.decompile .empty ladder (ladderTree (some 0)))) ∧
    ∀ line ∈ unfused.lines ladderImage "f" ladder
        (unfused.decompile .empty ladder (ladderTree (some 0))),
      ∀ i, ¬ line.Shows
        ((unfused.decompile .empty ladder (ladderTree (some 0))).scene ladderImage ladder)
        (unfused.style ladderImage.edges ladder
          (unfused.decompile .empty ladder (ladderTree (some 0))).tree) 3 i := by
  have ht : unfused.render ladderImage "f" ladder
        (unfused.decompile .empty ladder (ladderTree (some 0))) =
      "function f \x7b\n    0x1000: cmp eax, 0x1\n    if > \x7b\n        0x1005: eax = 0x2\n" ++
      "    \x7d\n    else if eax != 0x1 \x7b\n        0x100d: ebx = 0x6\n    \x7d\n\x7d\n" := by
    decide
  refine ⟨rfl, by decide, ht, ?_, ?_⟩
  · rw [ht, Occurs]
    decide +kernel
  · intro line hl i hs
    have hm := (exists_shows_iff _ _ _ _ (by decide)).mp ⟨line, hl, i, hs⟩
    revert hm
    decide

end Config

end Pseudocode
