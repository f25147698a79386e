import Mathlib.Data.List.Induction
import Pseudocode.Colors
import Pseudocode.Proofs.Recovery.Attachment
import Pseudocode.Proofs.Table

namespace Pseudocode

section Tour

variable {σ : Type} (s : Stream) (edges : Edges) (note : σ → UInt64 → σ)

/-- Notes where the first instruction of a block goes, if it is a jump to a known address. -/
def Block.tour (b : Block) (state : σ) : σ :=
  if b.start < b.stop then
    match s.get? b.start with
    | none => state
    | some i =>
      match i.operands.head?.bind Operand.directTarget?, (edges.successors i.address)[0]? with
      | some _, some a => if i.isJump then note state a else state
      | _, _ => state
  else state

mutual

def Item.tour : Item → σ → σ
  | .block b, state => b.tour s edges note state
  | .node n, state => n.tour state

/-- Notes the addresses that are met, one after the other. The alternative of a conditional is
visited before its body. -/
def Node.tour : Node → σ → σ
  | .seq items, state => Tree.tour items state
  | .ifGoto _ target, state => note state target
  | .andIf _, state => state
  | .ifElse _ body otherwise, state => Tree.tour body (Tree.tour otherwise state)
  | .jump target, state => note state target
  | .loop body _ epilog, state => epilogTour epilog (Tree.tour body state)
  | .comment _, state => state

def Tree.tour : List Item → σ → σ
  | [], state => state
  | item :: items, state => Tree.tour items (item.tour state)

def epilogTour : Option Node → σ → σ
  | none, state => state
  | some n, state => n.tour state

end

theorem Block.tour_eq_foldl (b : Block) (state : σ) :
    b.tour s edges note state = (b.landing? s edges).toList.foldl note state := by
  rw [tour, landing?, first?]
  by_cases h : b.start < b.stop
  · rw [if_pos h, isEmpty_eq_false.mpr h, if_neg Bool.false_ne_true]
    cases hi : s.get? b.start with
    | none => simp [hi]
    | some i =>
      have hn : edges.next? i.address = (edges.successors i.address)[0]? := List.head?_eq_getElem?
      cases hd : i.operands.head?.bind Operand.directTarget? <;>
        cases hs : (edges.successors i.address)[0]? <;> cases hj : i.isJump <;>
          simp [hi, hn, hd, hs, hj]
  · rw [if_neg h, if_pos (isEmpty_eq_true.mpr (Nat.le_of_not_lt h))]
    rfl

mutual

theorem Node.tour_eq_foldl : ∀ (n : Node) (state : σ),
    n.tour s edges note state = (n.targets s edges).foldl note state
  | .seq items, state => Tree.tour_eq_foldl items state
  | .ifElse _ body otherwise, state => by
    rw [Node.tour, Node.targets, List.foldl_append, Tree.tour_eq_foldl otherwise,
      Tree.tour_eq_foldl body]
  | .loop body _ epilog, state => by
    rw [Node.tour, Node.targets, List.foldl_append, Tree.tour_eq_foldl body,
      epilogTour_eq_foldl epilog]
  | .ifGoto .., _ | .andIf _, _ | .jump _, _ | .comment _, _ => rfl

theorem Tree.tour_eq_foldl : ∀ (items : List Item) (state : σ),
    Tree.tour s edges note items state = (Tree.targets s edges items).foldl note state
  | [], _ => rfl
  | .block b :: items, state => by
    rw [Tree.tour, Tree.targets, List.foldl_append, Tree.tour_eq_foldl items, Item.tour,
      Block.tour_eq_foldl, Item.targets]
  | .node n :: items, state => by
    rw [Tree.tour, Tree.targets, List.foldl_append, Tree.tour_eq_foldl items, Item.tour,
      Node.tour_eq_foldl n, Item.targets]

theorem epilogTour_eq_foldl : ∀ (epilog : Option Node) (state : σ),
    epilogTour s edges note epilog state = (epilogTargets s edges epilog).foldl note state
  | none, _ => rfl
  | some n, state => Node.tour_eq_foldl n state

end

end Tour

/-- The addresses that a tour through the tree meets, in its order. -/
def Tree.met (t : Tree) (s : Stream) (edges : Edges) : List UInt64 :=
  Tree.tour s edges (fun as a => as ++ [a]) t []

theorem Tree.met_eq_targets (t : Tree) (s : Stream) (edges : Edges) :
    t.met s edges = Tree.targets s edges t := by
  rw [Tree.met, Tree.tour_eq_foldl, List.foldl_append_eq_append, ← List.flatMap_def,
    List.flatMap_singleton', List.nil_append]

namespace Colors

theorem targets_pick (c : Colors) (a : UInt64) :
    (c.pick a).targets = if a ∈ c.targets then c.targets else c.targets ++ [a] := by
  rw [pick]
  split <;> rfl

theorem targets_ofTargets (as : List UInt64) : (ofTargets as).targets = as.eraseDups := by
  induction as using List.reverseRecOn with
  | nil => rfl
  | append_singleton as a ih =>
    have hs : ofTargets (as ++ [a]) = (ofTargets as).pick a := by
      rw [ofTargets, List.foldl_concat, ofTargets]
    rw [hs, targets_pick, ih, eraseDups_concat]
    simp only [List.mem_eraseDups]

theorem nodup_targets_foldl_pick (as : List UInt64) (c : Colors) (h : c.targets.Nodup) :
    (as.foldl pick c).targets.Nodup := by
  induction as generalizing c with
  | nil => exact h
  | cons a as ih =>
    apply ih
    rw [targets_pick]
    split
    · exact h
    next hn =>
      rw [← List.concat_eq_append]
      exact h.concat hn

theorem get?_eq_none_iff (c : Colors) (a : UInt64) : c.get? a = none ↔ a ∉ c.targets := by
  rw [get?, Option.map_eq_none_iff, List.idxOf?_eq_none_iff]

theorem get?_of_getElem? {c : Colors} (h : c.targets.Nodup) {k : Nat} {a : UInt64}
    (hk : c.targets[k]? = some a) : c.get? a = some (code k) := by
  obtain ⟨hlt, rfl⟩ := List.getElem?_eq_some_iff.mp hk
  have hi : c.targets.idxOf? c.targets[k] = some k := by
    refine List.idxOf?_eq_some_iff.mpr ⟨hlt, rfl, fun j hj he => ?_⟩
    exact absurd (h.getElem_inj_iff.mp he) (Nat.ne_of_lt hj)
  rw [get?, hi, Option.map_some]

theorem getElem?_palette (k : Nat) : palette[k % palette.length]? = some (code k) :=
  List.getElem?_eq_getElem (Nat.mod_lt k (by decide))

theorem code_ne_code {j k : Nat} (hj : j < k) (hk : k < j + 12) : code j ≠ code k := by
  have hn : palette.Nodup := by decide
  intro he
  have hm : j % 12 = k % 12 := congrArg Fin.val (hn.injective_get he)
  omega

end Colors

/-- A colour wheel: the colours that it has given to addresses, and how often it was turned. -/
structure Wheel where
  given : Table UInt64 Nat
  turns : Nat

namespace Wheel

def fresh : Wheel := ⟨.empty, 0⟩

/-- Gives an address the next colour unless it has one. There is none if the palette ends before. -/
def pick? (w : Wheel) (a : UInt64) : Option Wheel :=
  match w.given.get? a with
  | some _ => some w
  | none =>
    (Colors.palette[w.turns % Colors.palette.length]?).map fun code =>
      ⟨w.given.insert a code, w.turns + 1⟩

def entriesFrom (k : Nat) (as : List UInt64) : List (UInt64 × Nat) :=
  (as.zipIdx k).map fun (a, j) => (a, Colors.code j)

def ofColors (c : Colors) : Wheel :=
  ⟨⟨entriesFrom 0 c.targets⟩, c.targets.length⟩

theorem keys_entriesFrom (k : Nat) (as : List UInt64) : (entriesFrom k as).map Prod.fst = as := by
  rw [entriesFrom, List.map_map]
  exact List.zipIdx_map_fst k as

theorem find?_entriesFrom (k : Nat) (as : List UInt64) (a : UInt64) :
    Table.find? a (entriesFrom k as) = (as.idxOf? a).map fun j => Colors.code (k + j) := by
  induction as generalizing k with
  | nil => rfl
  | cons b as ih =>
    have hc : entriesFrom k (b :: as) = (b, Colors.code k) :: entriesFrom (k + 1) as := rfl
    rw [hc, Table.find?, List.idxOf?_cons, ih]
    by_cases h : b = a
    · simp [h]
    · simp only [h, if_false, beq_iff_eq, Option.map_map]
      congr 1
      funext j
      exact congrArg Colors.code (Nat.add_right_comm k 1 j)

theorem get?_given_ofColors (c : Colors) (a : UInt64) : (ofColors c).given.get? a = c.get? a := by
  rw [Table.get?, ofColors, find?_entriesFrom, Colors.get?]
  simp only [Nat.zero_add]

theorem pick?_ofColors (c : Colors) (a : UInt64) :
    (ofColors c).pick? a = some (ofColors (c.pick a)) := by
  rw [pick?, get?_given_ofColors, Colors.pick]
  by_cases h : a ∈ c.targets
  · have hs := mt (c.get?_eq_none_iff a).mp (not_not.mpr h)
    obtain ⟨code, hc⟩ := Option.ne_none_iff_exists'.mp hs
    rw [hc, if_pos h]
  · have hk : a ∉ (entriesFrom 0 c.targets).map Prod.fst := by rwa [keys_entriesFrom]
    rw [(c.get?_eq_none_iff a).mpr h, if_neg h, ofColors]
    dsimp only
    rw [Colors.getElem?_palette, Option.map_some, Table.insert, Table.put_of_not_mem hk]
    simp [ofColors, entriesFrom, List.zipIdx_append]

/-- Along any addresses the wheel gives the colours, and never reaches past the palette. -/
theorem foldl_pick?_ofColors (as : List UInt64) (c : Colors) :
    as.foldl (fun w a => w.bind (·.pick? a)) (some (ofColors c)) =
      some (ofColors (as.foldl Colors.pick c)) := by
  induction as generalizing c with
  | nil => rfl
  | cons a as ih =>
    rw [List.foldl_cons, Option.bind_some, pick?_ofColors, ih]
    rfl

end Wheel

theorem Tree.tour_pick? (t : Tree) (s : Stream) (edges : Edges) :
    Tree.tour s edges (fun w a => w.bind (·.pick? a)) t (some Wheel.fresh) =
      some (Wheel.ofColors (t.colors s edges)) := by
  rw [Tree.tour_eq_foldl]
  exact Wheel.foldl_pick?_ofColors (Tree.targets s edges t) .empty

mutual

theorem Node.targets_detach (s : Stream) (edges : Edges) : ∀ n : Node,
    n.detach.targets s edges = n.targets s edges
  | .seq items => Tree.targets_detach s edges items
  | .ifElse _ body otherwise => by
    rw [Node.detach, Node.targets, Node.targets, Tree.targets_detach s edges body,
      Tree.targets_detach s edges otherwise]
  | .loop body _ epilog => by
    rw [Node.detach, Node.targets, Node.targets, Tree.targets_detach s edges body,
      epilogTargets_detach s edges epilog]
  | .ifGoto .. | .andIf _ | .jump _ | .comment _ => rfl

theorem Tree.targets_detach (s : Stream) (edges : Edges) : ∀ items : List Item,
    Tree.targets s edges (Tree.detach items) = Tree.targets s edges items
  | [] => rfl
  | .block b :: items => by
    rw [Tree.detach, Tree.targets, Tree.targets, Tree.targets_detach s edges items, Item.detach]
  | .node n :: items => by
    rw [Tree.detach, Tree.targets, Tree.targets, Tree.targets_detach s edges items, Item.detach,
      Item.targets, Item.targets, Node.targets_detach s edges n]

theorem epilogTargets_detach (s : Stream) (edges : Edges) : ∀ epilog : Option Node,
    epilogTargets s edges (detachEpilog epilog) = epilogTargets s edges epilog
  | none => rfl
  | some n => Node.targets_detach s edges n

end

theorem Tree.colors_fuse (t : Tree) (s : Stream) (edges : Edges) :
    (t.fuse s).colors s edges = t.colors s edges := by
  have hd : Tree.detach (t.fuse s) = Tree.detach t := Tree.detach_fuseAfter s t none
  rw [Tree.colors, ← Tree.targets_detach, hd, Tree.targets_detach, Tree.colors]

/-- The addresses with a colour are those that a tour meets. They take the colours of the palette in
turn, in the order in which they are met first, so that any twelve in a row differ. A tour that turns
a wheel ends with the same colours, and fusion does not change them. -/
theorem Tree.colors_follow_first_met (t : Tree) (s : Stream) (edges : Edges) :
    (∀ a, (∃ code, (t.colors s edges).get? a = some code) ↔ a ∈ t.met s edges) ∧
    (∀ k a, (t.met s edges).eraseDups[k]? = some a →
      (t.colors s edges).get? a = Colors.palette[k % 12]?) ∧
    (∀ j k a b, (t.met s edges).eraseDups[j]? = some a →
      (t.met s edges).eraseDups[k]? = some b → j < k → k < j + 12 →
      (t.colors s edges).get? a ≠ (t.colors s edges).get? b) ∧
    (∃ wheel, Tree.tour s edges (fun w a => w.bind (·.pick? a)) t (some Wheel.fresh) = some wheel ∧
      wheel.turns = (t.met s edges).eraseDups.length ∧
      ∀ a, wheel.given.get? a = (t.colors s edges).get? a) ∧
    (t.fuse s).colors s edges = t.colors s edges := by
  have ht : (t.colors s edges).targets = (t.met s edges).eraseDups := by
    rw [Tree.colors, Colors.targets_ofTargets, Tree.met_eq_targets]
  have hn : (t.colors s edges).targets.Nodup :=
    Colors.nodup_targets_foldl_pick _ .empty List.nodup_nil
  have hget : ∀ k a, (t.met s edges).eraseDups[k]? = some a →
      (t.colors s edges).get? a = some (Colors.code k) := by
    intro k a hk
    rw [← ht] at hk
    exact Colors.get?_of_getElem? hn hk
  refine ⟨?_, ?_, ?_, ?_, Tree.colors_fuse t s edges⟩
  · intro a
    rw [← Option.ne_none_iff_exists', ne_eq, Colors.get?_eq_none_iff, not_not, ht,
      List.mem_eraseDups]
  · intro k a hk
    rw [hget k a hk]
    exact (Colors.getElem?_palette k).symm
  · intro j k a b ha hb hj hk
    rw [hget j a ha, hget k b hb, ne_eq, Option.some.injEq]
    exact Colors.code_ne_code hj hk
  · refine ⟨_, Tree.tour_pick? t s edges, ?_, Wheel.get?_given_ofColors _⟩
    rw [Wheel.ofColors, ht]

def loneJump : Stream :=
  ⟨[⟨0x1000, 2, [], .jump, "jmp", [.relative 0x1e 0x1020], .unconditionalBranch 0x1020⟩], rfl⟩

def forked : Tree :=
  [.block ⟨0, 1⟩, .node (.ifElse ⟨0, .equal, none⟩ [.node (.jump 0x1000)]
    [.node (.ifGoto ⟨0, .less, none⟩ 0x2000)]), .node (.jump 0x1020)]

theorem Tree.colors_follow_first_met_forked :
    forked.met loneJump (Edges.empty.add 0x1000 0x1020) = [0x1020, 0x2000, 0x1000, 0x1020] ∧
    (forked.colors loneJump (Edges.empty.add 0x1000 0x1020)).get? 0x1020 = some 31 ∧
    (forked.colors loneJump (Edges.empty.add 0x1000 0x1020)).get? 0x2000 = some 32 ∧
    (forked.colors loneJump (Edges.empty.add 0x1000 0x1020)).get? 0x2000 ≠
      (forked.colors loneJump (Edges.empty.add 0x1000 0x1020)).get? 0x1000 := by
  obtain ⟨-, hk, hd, -⟩ :=
    Tree.colors_follow_first_met forked loneJump (Edges.empty.add 0x1000 0x1020)
  exact ⟨rfl, hk 0 _ rfl, hk 1 _ rfl, hd 1 2 _ _ rfl rfl (by decide) (by decide)⟩

end Pseudocode
