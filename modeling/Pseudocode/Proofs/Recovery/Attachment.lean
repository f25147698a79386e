import Mathlib.Data.List.Perm.Basic
import Pseudocode.Proofs.Recovery.Fusion
import Pseudocode.Proofs.Tree.Execution

namespace Pseudocode

/-- What stands at a place of a tree: a branch, or a node together with the block right before it. -/
inductive Part
  | branch (items : List Item)
  | node (before : Option Block) (n : Node)

namespace Part

def blockBefore? (before : Option Block) (items : List Item) : Nat → Option Block
  | 0 => before
  | index + 1 => items[index]?.bind Item.block?

def ofItem? (before : Option Block) (items : List Item) (index : Nat) : Option Part :=
  (items[index]?.bind Item.node?).map (.node (blockBefore? before items index))

/-- Neither the first item of a branch nor an epilog has a block in front of it. -/
def step : Part → Step → Option Part
  | .branch items, .item index => ofItem? none items index
  | .node _ (.seq items), .item index => ofItem? none items index
  | .node _ (.ifElse _ body _), .body => some (.branch body)
  | .node _ (.ifElse _ _ otherwise), .otherwise => some (.branch otherwise)
  | .node _ (.loop body _ _), .body => some (.branch body)
  | .node _ (.loop _ _ epilog), .epilog => epilog.map (.node none)
  | _, _ => none

def at? (part : Part) : Place → Option Part
  | [] => some part
  | step :: place => (part.at? place).bind (·.step step)

end Part

/-- What stands at a place of the tree. -/
def Tree.at? (t : Tree) (place : Place) : Option Part :=
  (Part.branch t).at? place

/-- The last instruction of the block has the handle `h` and can serve as a test. -/
structure Block.Offers (b : Block) (s : Stream) (h : Nat) : Prop where
  nonempty : b.start < b.stop
  last : h + 1 = b.stop
  fusable : ∃ i, s.get? h = some i ∧ i.isFusable = true

theorem Block.comparison?_eq_some_iff {b : Block} {s : Stream} {h : Nat} :
    b.comparison? s = some h ↔ b.Offers s h := by
  constructor
  · intro hc
    obtain ⟨hlt, rfl, hf⟩ := comparison?_eq_some hc
    exact ⟨hlt, Nat.sub_add_cancel (Nat.one_le_of_lt hlt), hf⟩
  · rintro ⟨hlt, hl, i, hi, hf⟩
    have hs : b.stop - 1 = h := by omega
    rw [comparison?, last?, isEmpty_eq_false.mpr hlt, hs]
    simp [Option.filter, hi, hf]

namespace Part

def offer? (s : Stream) (before : Option Block) : Option Nat :=
  before.bind (·.comparison? s)

theorem offer?_eq_some_iff {s : Stream} {before : Option Block} {h : Nat} :
    offer? s before = some h ↔ ∃ b, before = some b ∧ b.Offers s h := by
  simp only [offer?, Option.bind_eq_some_iff, Block.comparison?_eq_some_iff]

def fuse (s : Stream) : Part → Part
  | .branch items => .branch (Tree.fuseAfter s none items)
  | .node before n => .node before ((n.fuse s).attach (offer? s before))

theorem ofItem?_cons_succ (before : Option Block) (item : Item) (items : List Item) (k : Nat) :
    ofItem? before (item :: items) (k + 1) = ofItem? item.block? items k := by
  cases k <;> rfl

theorem ofItem?_fuseAfter (s : Stream) (before : Option Block) (items : List Item) (k : Nat) :
    ofItem? before (Tree.fuseAfter s (offer? s before) items) k =
      (ofItem? before items k).map (fuse s) := by
  induction items generalizing before k with
  | nil => simp [Tree.fuseAfter, ofItem?]
  | cons item items ih =>
    cases item with
    | block b =>
      rw [Tree.fuseAfter]
      cases k with
      | zero => rfl
      | succ k =>
        rw [ofItem?_cons_succ, ofItem?_cons_succ]
        exact ih (some b) k
    | node n =>
      rw [Tree.fuseAfter]
      cases k with
      | zero => rfl
      | succ k =>
        rw [ofItem?_cons_succ, ofItem?_cons_succ]
        exact ih none k

theorem step_attach (before : Option Block) (n : Node) (offer : Option Nat) (step : Step) :
    (node before (n.attach offer)).step step = (node before n).step step := by
  cases offer with
  | none => rfl
  | some h => cases n <;> cases step <;> rfl

theorem step_fuse (s : Stream) (part : Part) (step : Step) :
    (part.fuse s).step step = (part.step step).map (fuse s) := by
  have hitems := fun items k => ofItem?_fuseAfter s none items k
  cases part with
  | branch items =>
    cases step with
    | item index => exact hitems items index
    | body | otherwise | epilog => rfl
  | node before n =>
    rw [fuse, step_attach]
    cases n with
    | seq items =>
      cases step with
      | item index => exact hitems items index
      | body | otherwise | epilog => rfl
    | loop body infinite epilog =>
      cases step with
      | epilog => cases epilog <;> rfl
      | item | body | otherwise => rfl
    | ifElse | ifGoto | andIf | jump | comment => cases step <;> rfl

theorem at?_fuse (s : Stream) (part : Part) (place : Place) :
    (part.fuse s).at? place = (part.at? place).map (fuse s) := by
  induction place with
  | nil => rfl
  | cons step place ih =>
    rw [at?, at?, ih, Option.bind_map, Option.map_bind]
    congr 1
    funext next
    exact step_fuse s next step

end Part

theorem Tree.at?_fuse (t : Tree) (s : Stream) (place : Place) :
    (t.fuse s).at? place = (t.at? place).map (Part.fuse s) :=
  Part.at?_fuse s (.branch t) place

namespace Part

section Takes

variable (s : Stream)

/-- The handles that fusion attaches to nodes of a part. -/
def fused : Part → List Nat
  | .branch items => Tree.fusedAfter s none items
  | .node before n => n.taken (offer? s before) ++ n.fused s

def taken : Part → List Nat
  | .branch _ => []
  | .node before n => n.taken (offer? s before)

theorem mem_fusedAfter_iff {h : Nat} (before : Option Block) (items : List Item) :
    h ∈ Tree.fusedAfter s (offer? s before) items ↔
      ∃ k next, ofItem? before items k = some next ∧ h ∈ next.fused s := by
  induction items generalizing before with
  | nil => simp [Tree.fusedAfter, ofItem?]
  | cons item items ih =>
    rw [← Nat.or_exists_add_one]
    simp only [ofItem?_cons_succ, ← ih]
    cases item with
    | block b => simp [Tree.fusedAfter, ofItem?, Item.node?, Item.block?, offer?]
    | node n =>
      simp [Tree.fusedAfter, ofItem?, Item.node?, Item.block?, blockBefore?, fused, offer?,
        or_assoc]

theorem exists_step_iff {p : Step → Prop} :
    (∃ step, p step) ↔ (∃ index, p (.item index)) ∨ p .body ∨ p .otherwise ∨ p .epilog := by
  constructor
  · rintro ⟨index | _, hp⟩
    · exact .inl ⟨index, hp⟩
    · exact .inr (.inl hp)
    · exact .inr (.inr (.inl hp))
    · exact .inr (.inr (.inr hp))
  · rintro (⟨index, hp⟩ | hp | hp | hp)
    all_goals exact ⟨_, hp⟩

theorem mem_fused_iff {h : Nat} (part : Part) :
    h ∈ part.fused s ↔
      h ∈ part.taken s ∨ ∃ step next, part.step step = some next ∧ h ∈ next.fused s := by
  have hitems : ∀ items, h ∈ Tree.fusedAfter s none items ↔
      ∃ k next, ofItem? none items k = some next ∧ h ∈ next.fused s :=
    mem_fusedAfter_iff s none
  rw [exists_step_iff]
  cases part with
  | branch items => simp [step, fused, taken, hitems]
  | node before n =>
    rw [fused, taken, List.mem_append]
    apply or_congr_right
    cases n with
    | seq items => simp [step, Node.fused, hitems]
    | ifElse test body otherwise => simp [step, Node.fused, fused]
    | loop body infinite epilog =>
      cases epilog <;> simp [step, Node.fused, fused, fusedEpilog, offer?, Node.taken_none]
    | ifGoto | andIf | jump | comment => simp [step, Node.fused]

noncomputable def weight : Part → Nat
  | .branch items => sizeOf items
  | .node _ n => sizeOf n

theorem weight_ofItem? {before : Option Block} {items : List Item} {k : Nat} {next : Part}
    (h : ofItem? before items k = some next) : next.weight < sizeOf items := by
  obtain ⟨n, hn, rfl⟩ := Option.map_eq_some_iff.mp h
  obtain ⟨item, hi, hn⟩ := Option.bind_eq_some_iff.mp hn
  have hlt := List.sizeOf_lt_of_mem (List.mem_of_getElem? hi)
  cases item with
  | block b => cases hn
  | node m =>
    cases hn
    rw [Item.node.sizeOf_spec] at hlt
    rw [weight]
    omega

theorem weight_step {part next : Part} {step : Step} (h : part.step step = some next) :
    next.weight < part.weight := by
  unfold Part.step at h
  split at h
  · exact weight_ofItem? h
  · refine Nat.lt_trans (weight_ofItem? h) ?_
    simp only [weight, Node.seq.sizeOf_spec]
    omega
  · cases h
    simp only [weight, Node.ifElse.sizeOf_spec]
    omega
  · cases h
    simp only [weight, Node.ifElse.sizeOf_spec]
    omega
  · cases h
    simp only [weight, Node.loop.sizeOf_spec]
    omega
  · obtain ⟨n, rfl, rfl⟩ := Option.map_eq_some_iff.mp h
    simp only [weight, Node.loop.sizeOf_spec, Option.some.sizeOf_spec]
    omega
  · cases h

theorem at?_concat (part : Part) (place : Place) (step : Step) :
    part.at? (place ++ [step]) = (part.step step).bind (·.at? place) := by
  induction place with
  | nil =>
    rw [List.nil_append, at?, at?, Option.bind_some]
    cases part.step step <;> rfl
  | cons last place ih =>
    rw [List.cons_append, at?, ih, Option.bind_assoc]
    rfl

theorem mem_fused_of_at? {h : Nat} {part next : Part} {place : Place}
    (hp : part.at? place = some next) (hh : h ∈ next.fused s) : h ∈ part.fused s := by
  induction place generalizing next with
  | nil =>
    cases hp
    exact hh
  | cons step place ih =>
    obtain ⟨mid, hm, hs⟩ := Option.bind_eq_some_iff.mp hp
    exact ih hm ((mem_fused_iff s mid).mpr (.inr ⟨step, next, hs, hh⟩))

/-- What fusion attaches it attaches at some place, where it is taken. -/
theorem mem_fused_iff_at? {h : Nat} (part : Part) :
    h ∈ part.fused s ↔ ∃ place next, part.at? place = some next ∧ h ∈ next.taken s := by
  constructor
  · intro hh
    induction hw : part.weight using Nat.strongRecOn generalizing part with
    | ind w ih =>
      obtain ht | ⟨step, next, hs, hn⟩ := (mem_fused_iff s part).mp hh
      · exact ⟨[], part, rfl, ht⟩
      · obtain ⟨place, last, hp, hl⟩ := ih next.weight (hw ▸ weight_step hs) next hn rfl
        refine ⟨place ++ [step], last, ?_, hl⟩
        rw [at?_concat, hs, Option.bind_some, hp]
  · rintro ⟨place, next, hp, ht⟩
    exact mem_fused_of_at? s hp ((mem_fused_iff s next).mpr (.inl ht))

end Takes

theorem before_of_step {part : Part} {step : Step} {before : Option Block} {n : Node}
    (h : part.step step = some (.node before n)) (hf : step = .item 0 ∨ step = .epilog) :
    before = none := by
  have hitem : ∀ items, ofItem? none items 0 = some (.node before n) → before = none := by
    intro items hi
    obtain ⟨m, -, hm⟩ := Option.map_eq_some_iff.mp hi
    cases hm
    rfl
  unfold Part.step at h
  split at h
  · obtain hf | hf := hf <;> cases hf
    exact hitem _ h
  · obtain hf | hf := hf <;> cases hf
    exact hitem _ h
  · cases h
  · cases h
  · cases h
  · obtain ⟨m, -, hm⟩ := Option.map_eq_some_iff.mp h
    cases hm
    rfl
  · cases h

end Part

theorem Node.test?_fuse_attach (s : Stream) (n : Node) (offer : Option Nat) :
    ((n.fuse s).attach offer).test? = n.test?.map (·.offered offer) := by
  cases offer with
  | none => cases n <;> rfl
  | some h => cases n <;> rfl

def Test.detach (test : Test) : Test :=
  { test with comparison := none }

mutual

def Item.detach : Item → Item
  | .block b => .block b
  | .node n => .node n.detach

/-- The node without its comparisons, at any depth. -/
def Node.detach : Node → Node
  | .seq items => .seq (Tree.detach items)
  | .ifGoto test target => .ifGoto test.detach target
  | .andIf test => .andIf test.detach
  | .ifElse test body otherwise => .ifElse test.detach (Tree.detach body) (Tree.detach otherwise)
  | .jump target => .jump target
  | .loop body infinite epilog => .loop (Tree.detach body) infinite (detachEpilog epilog)
  | .comment text => .comment text

def Tree.detach : List Item → List Item
  | [] => []
  | item :: items => item.detach :: Tree.detach items

def detachEpilog : Option Node → Option Node
  | none => none
  | some n => some n.detach

end

theorem Node.detach_attach (n : Node) (offer : Option Nat) : (n.attach offer).detach = n.detach := by
  cases offer with
  | none => rfl
  | some h => cases n <;> rfl

mutual

theorem Node.detach_fuse (s : Stream) : ∀ n : Node, (n.fuse s).detach = n.detach
  | .seq items => by simp only [Node.fuse, Node.detach, Tree.detach_fuseAfter s items]
  | .ifElse test body otherwise => by
    simp only [Node.fuse, Node.detach, Tree.detach_fuseAfter s body,
      Tree.detach_fuseAfter s otherwise]
  | .loop body infinite epilog => by
    simp only [Node.fuse, Node.detach, Tree.detach_fuseAfter s body, detach_fuseEpilog s epilog]
  | .ifGoto .. | .andIf _ | .jump _ | .comment _ => rfl

theorem Tree.detach_fuseAfter (s : Stream) : ∀ (items : List Item) (offer : Option Nat),
    Tree.detach (Tree.fuseAfter s offer items) = Tree.detach items
  | [], _ => rfl
  | .block b :: items, _ => by
    simp only [Tree.fuseAfter, Tree.detach, Tree.detach_fuseAfter s items]
  | .node n :: items, offer => by
    simp only [Tree.fuseAfter, Tree.detach, Item.detach, Node.detach_attach, Node.detach_fuse s n,
      Tree.detach_fuseAfter s items]

theorem detach_fuseEpilog (s : Stream) : ∀ epilog : Option Node,
    detachEpilog (fuseEpilog s epilog) = detachEpilog epilog
  | none => rfl
  | some n => by simp only [fuseEpilog, detachEpilog, Node.detach_fuse s n]

end

namespace Marks

theorem contains_iff (m : Marks) (a : UInt64) : m.contains a = true ↔ a ∈ m.toList :=
  List.contains_iff_mem

theorem nodup_toList (m : Marks) : m.toList.Nodup :=
  m.ascending.imp UInt64.ne_of_lt

theorem size_sub_size {m later : Marks} (h : ∀ a, m.contains a = true → later.contains a = true) :
    later.size - m.size = (later.toList.filter fun a => !m.contains a).length := by
  have hp : (later.toList.filter m.contains).Perm m.toList := by
    rw [List.perm_ext_iff_of_nodup (later.nodup_toList.filter _) m.nodup_toList]
    intro a
    rw [List.mem_filter, ← contains_iff, ← contains_iff]
    exact and_iff_right_of_imp (h a)
  have hl := List.length_eq_length_filter_add (l := later.toList) m.contains
  rw [size, size, hl, hp.length_eq]
  omega

end Marks

namespace Tree

variable {s : Stream} {t : Tree}

theorem mem_fusedAfter_iff_at? {h : Nat} :
    h ∈ Tree.fusedAfter s none t ↔ ∃ place b n, t.at? place = some (.node (some b) n) ∧
      n.isConditional = true ∧ b.Offers s h := by
  refine (Part.mem_fused_iff_at? s (.branch t)).trans ?_
  constructor
  · rintro ⟨place, next, hp, ht⟩
    cases next with
    | branch items => cases ht
    | node before n =>
      obtain ⟨b, rfl, ho⟩ := Part.offer?_eq_some_iff.mp (Node.mem_taken ht)
      refine ⟨place, b, n, hp, ?_, ho⟩
      rw [Part.taken, Node.taken] at ht
      split at ht
      next hc => exact hc
      next => cases ht
  · rintro ⟨place, b, n, hp, hc, ho⟩
    refine ⟨place, .node (some b) n, hp, ?_⟩
    rw [Part.taken, Node.taken, if_pos hc, Part.offer?_eq_some_iff.mpr ⟨b, rfl, ho⟩]
    exact List.mem_singleton_self h

theorem mem_fusedAddresses_iff_at? {a : UInt64} :
    a ∈ t.fusedAddresses s ↔ ∃ place b n h i, t.at? place = some (.node (some b) n) ∧
      n.isConditional = true ∧ b.Offers s h ∧ s.get? h = some i ∧ i.address = a := by
  rw [Tree.mem_fusedAddresses]
  constructor
  · rintro ⟨h, hh, i, hi, ha⟩
    obtain ⟨place, b, n, hp, hc, ho⟩ := mem_fusedAfter_iff_at?.mp hh
    exact ⟨place, b, n, h, i, hp, hc, ho, hi, ha⟩
  · rintro ⟨place, b, n, h, i, hp, hc, ho, hi, ha⟩
    exact ⟨h, mem_fusedAfter_iff_at?.mpr ⟨place, b, n, hp, hc, ho⟩, i, hi, ha⟩

theorem before_of_at? {place : Place} {before : Option Block} {n : Node}
    (hp : t.at? place = some (.node before n))
    (hf : place.head? = some (.item 0) ∨ place.head? = some .epilog) : before = none := by
  cases place with
  | nil => cases hp
  | cons step place =>
    obtain ⟨part, -, hs⟩ := Option.bind_eq_some_iff.mp hp
    apply Part.before_of_step hs
    simpa using hf

/-- A conditional takes what the block right before it offers. -/
theorem at?_fuse_of_test? {place : Place} {before : Option Block} {n : Node} {test : Test}
    (hp : t.at? place = some (.node before n)) (ht : n.test? = some test) :
    ∃ m, (t.fuse s).at? place = some (.node before m) ∧
      m.test? = some (test.offered (Part.offer? s before)) := by
  refine ⟨(n.fuse s).attach (Part.offer? s before), ?_, ?_⟩
  · rw [Tree.at?_fuse, hp]
    rfl
  · rw [Node.test?_fuse_attach, ht, Option.map_some]

end Tree

namespace Findings

/-- Fusion changes nothing but comparisons. A conditional gets the last instruction of the block
right before it as its comparison if that instruction can serve as a test, and keeps the one that it
has otherwise, in particular if it is the first item of a branch or an epilog. The addresses of the
instructions that conditionals get are added to the marks, the slots stay, and what is counted are
the marks that are new. -/
theorem fuse_attaches_and_marks (f : Findings) (s : Stream) (t : Tree) :
    Tree.detach (t.fuse s) = Tree.detach t ∧
    (∀ place before n test, t.at? place = some (.node before n) → n.test? = some test →
      ∃ m, (t.fuse s).at? place = some (.node before m) ∧
        (∀ b h, before = some b → b.Offers s h →
          m.test? = some { test with comparison := some h }) ∧
        ((∀ b h, before = some b → ¬ b.Offers s h) → m.test? = some test) ∧
        (place.head? = some (.item 0) ∨ place.head? = some .epilog → m.test? = some test)) ∧
    (∀ a, (f.fuse s t).fused.contains a = true ↔ f.fused.contains a = true ∨
      ∃ place b n h i, t.at? place = some (.node (some b) n) ∧ n.isConditional = true ∧
        b.Offers s h ∧ s.get? h = some i ∧ i.address = a) ∧
    (f.fuse s t).slots = f.slots ∧
    f.fuseCount s t = ((f.fuse s t).fused.toList.filter fun a => !f.fused.contains a).length := by
  refine ⟨Tree.detach_fuseAfter s t none, ?_, ?_, rfl, ?_⟩
  · intro place before n test hp ht
    obtain ⟨m, hm, hmt⟩ := Tree.at?_fuse_of_test? (s := s) hp ht
    have hkeep : Part.offer? s before = none → m.test? = some test := by
      intro hn
      rw [hmt, hn]
      rfl
    refine ⟨m, hm, ?_, ?_, ?_⟩
    · intro b h hb ho
      rw [hmt, Part.offer?_eq_some_iff.mpr ⟨b, hb, ho⟩]
      rfl
    · intro hno
      apply hkeep
      rw [Option.eq_none_iff_forall_ne_some]
      intro h hh
      obtain ⟨b, hb, ho⟩ := Part.offer?_eq_some_iff.mp hh
      exact hno b h hb ho
    · intro hf
      apply hkeep
      rw [Tree.before_of_at? hp hf]
      rfl
  · intro a
    rw [contains_fuse, Tree.mem_fusedAddresses_iff_at?]
  · apply Marks.size_sub_size
    intro a ha
    exact (contains_fuse f s t a).mpr (.inl ha)

def comparedJump : Stream :=
  ⟨[⟨0x1000, 3, [], .compare, "cmp", [], .sequential⟩,
    ⟨0x1003, 2, [], .conditionalJump, "je", [], .sequential⟩], rfl⟩

def looped : Tree :=
  [.node (.loop [.block ⟨0, 1⟩, .node (.ifGoto ⟨1, .equal, some 7⟩ 0x1000)] false
    (some (.andIf ⟨1, .less, some 5⟩)))]

theorem fuse_attaches_and_marks_looped :
    (∃ m, (looped.fuse comparedJump).at? [.item 1, .body, .item 0] =
        some (.node (some ⟨0, 1⟩) m) ∧ m.test? = some ⟨1, .equal, some 0⟩) ∧
    (∃ m, (looped.fuse comparedJump).at? [.epilog, .item 0] = some (.node none m) ∧
        m.test? = some ⟨1, .less, some 5⟩) ∧
    ((start "var").fuse comparedJump looped).fused.contains 0x1000 = true := by
  obtain ⟨-, ht, hm, -⟩ := fuse_attaches_and_marks (start "var") comparedJump looped
  have ho : (Block.mk 0 1).Offers comparedJump 0 := ⟨by decide, rfl, _, rfl, rfl⟩
  obtain ⟨m, hb, hc, -⟩ := ht [.item 1, .body, .item 0] _ _ _ rfl rfl
  obtain ⟨e, he, -, -, hk⟩ := ht [.epilog, .item 0] _ _ _ rfl rfl
  refine ⟨⟨m, hb, hc _ 0 rfl ho⟩, ⟨e, he, hk (.inr rfl)⟩, ?_⟩
  exact (hm 0x1000).mpr (.inr ⟨[.item 1, .body, .item 0], _, _, 0, _, rfl, rfl, ho, rfl, rfl⟩)

end Findings

end Pseudocode
