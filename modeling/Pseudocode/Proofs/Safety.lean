import Mathlib.Data.Nat.PSub
import Pseudocode.Decompile
import Pseudocode.Proofs.Colors
import Pseudocode.Proofs.Recovery.Discovery

namespace Pseudocode

def Block.checkedLast (b : Block) : Option (Option Nat) :=
  if b.isEmpty then some none else b.stop.ppred.map some

/-- Attaches the instruction at `h` to the item with the number `k`, if that is a conditional, and
marks the address of the instruction. -/
def attachAt? (s : Stream) (p : List Item × Marks) (k h : Nat) : Option (List Item × Marks) :=
  match p.1[k]? with
  | some (.node n) =>
    if n.isConditional then do
      let i ← s.get? h
      return (p.1.set k (.node (n.setComparison (some h))), p.2.insert i.address)
    else some p
  | _ => some p

/-- One round of the loop through the items of a branch. A node with the number `k` is fused by
`below`, and the last instruction of a block with this number is attached to the item behind it. -/
def fuseItem? (s : Stream) (below : Node → Marks → Option (Node × Marks))
    (p : List Item × Marks) (k : Nat) : Option (List Item × Marks) := do
  match ← p.1[k]? with
  | .node n =>
    let (fused, marks) ← below n p.2
    return (p.1.set k (.node fused), marks)
  | .block b =>
    match (← b.checkedLast).filter fun h => (s.get? h).any Instruction.isFusable with
    | none => return p
    | some h => attachAt? s p (k + 1) h

def fuseItems? (s : Stream) (below : Node → Marks → Option (Node × Marks)) (items : List Item)
    (marks : Marks) : Option (List Item × Marks) :=
  (List.range items.length).foldlM (fuseItem? s below) (items, marks)

example (s : Stream) (below : Node → Marks → Option (Node × Marks)) (marks : Marks) :
    fuseItem? s below ([.block ⟨0, 1⟩], marks) 1 = none := rfl

/-- Fuses a node whose nodes are nested at most `depth` deep. -/
def fuseNode? (s : Stream) : Nat → Node → Marks → Option (Node × Marks)
  | 0, _, _ => none
  | depth + 1, .seq items, marks => do
    let (items, marks) ← fuseItems? s (fuseNode? s depth) items marks
    return (.seq items, marks)
  | depth + 1, .ifElse test body otherwise, marks => do
    let (body, marks) ← fuseItems? s (fuseNode? s depth) body marks
    let (otherwise, marks) ← fuseItems? s (fuseNode? s depth) otherwise marks
    return (.ifElse test body otherwise, marks)
  | depth + 1, .loop body infinite none, marks => do
    let (body, marks) ← fuseItems? s (fuseNode? s depth) body marks
    return (.loop body infinite none, marks)
  | depth + 1, .loop body infinite (some epilog), marks => do
    let (body, marks) ← fuseItems? s (fuseNode? s depth) body marks
    let (epilog, marks) ← fuseNode? s depth epilog marks
    return (.loop body infinite (some epilog), marks)
  | _ + 1, n, marks => some (n, marks)

theorem Block.checkedLast_eq (b : Block) : b.checkedLast = some b.last? := by
  rw [checkedLast, last?]
  split
  · rfl
  next he =>
    have hlt := isEmpty_eq_false.mp (Bool.not_eq_true _ ▸ he)
    have hp : b.stop.ppred = some (b.stop - 1) :=
      Nat.ppred_eq_some.mpr (Nat.sub_add_cancel (Nat.one_le_of_lt hlt))
    rw [hp, Option.map_some]

def Tree.attachFirst (offer : Option Nat) : List Item → List Item
  | [] => []
  | .block b :: items => .block b :: items
  | .node n :: items => .node (n.attach offer) :: items

def Marks.insertAll (m : Marks) (s : Stream) (handles : List Nat) : Marks :=
  (handles.filterMap fun h => (s.get? h).map Instruction.address).foldl insert m

theorem Marks.insertAll_append (m : Marks) (s : Stream) (hs ks : List Nat) :
    m.insertAll s (hs ++ ks) = (m.insertAll s hs).insertAll s ks := by
  rw [insertAll, List.filterMap_append, List.foldl_append, insertAll, insertAll]

theorem Tree.attachFirst_none (items : List Item) : Tree.attachFirst none items = items := by
  cases items with
  | nil => rfl
  | cons item items => cases item <;> rfl

section Loop

variable {s : Stream} {below : Node → Marks → Option (Node × Marks)}

theorem attachAt?_eq {h : Nat} {i : Instruction} (hi : s.get? h = some i) (marks : Marks)
    (before rest : List Item) :
    attachAt? s (before ++ rest, marks) before.length h =
      some (before ++ Tree.attachFirst (some h) rest,
        marks.insertAll s (Tree.taken (some h) rest)) := by
  cases rest with
  | nil => simp [attachAt?, Tree.attachFirst, Tree.taken, Marks.insertAll]
  | cons item rest =>
    cases item with
    | block d => simp [attachAt?, Tree.attachFirst, Tree.taken, Marks.insertAll]
    | node n =>
      cases hc : n.isConditional with
      | true =>
        simp [attachAt?, Tree.attachFirst, Tree.taken, Marks.insertAll, Node.taken, Node.attach,
          hc, hi]
      | false =>
        rw [Tree.attachFirst, Node.attach_of_not_conditional hc]
        simp [attachAt?, Tree.taken, Marks.insertAll, Node.taken, hc]

theorem fuseItem?_node {n m : Node} {marks later : Marks} (hb : below n marks = some (m, later))
    (before rest : List Item) :
    fuseItem? s below (before ++ .node n :: rest, marks) before.length =
      some (before ++ .node m :: rest, later) := by
  simp [fuseItem?, hb]

theorem fuseItem?_block (b : Block) (marks : Marks) (before rest : List Item) :
    fuseItem? s below (before ++ .block b :: rest, marks) before.length =
      some (before ++ .block b :: Tree.attachFirst (b.comparison? s) rest,
        marks.insertAll s (Tree.taken (b.comparison? s) rest)) := by
  have hc : b.last?.filter (fun h => (s.get? h).any Instruction.isFusable) = b.comparison? s := rfl
  simp only [fuseItem?, List.getElem?_append_right (Nat.le_refl _), Nat.sub_self,
    List.getElem?_cons_zero, Option.bind_eq_bind, Option.bind_some, Block.checkedLast_eq, hc]
  cases ho : b.comparison? s with
  | none =>
    rw [Tree.attachFirst_none, Tree.taken_none]
    rfl
  | some h =>
    obtain ⟨-, -, i, hi, -⟩ := Block.comparison?_eq_some ho
    have ha := attachAt?_eq hi marks (before ++ [.block b]) rest
    rwa [List.append_assoc, List.append_assoc, List.length_append] at ha

/-- From an item on, with what is offered to it attached and marked, the loop does what fusion
does. -/
theorem foldlM_fuseItem? (rest : List Item)
    (hb : ∀ n, .node n ∈ rest → ∀ offer marks, below (n.attach offer) marks =
      some ((n.fuse s).attach offer, marks.insertAll s (n.fused s)))
    (before : List Item) (offer : Option Nat) (marks : Marks) :
    (List.range' before.length rest.length).foldlM (fuseItem? s below)
        (before ++ Tree.attachFirst offer rest, marks.insertAll s (Tree.taken offer rest)) =
      some (before ++ Tree.fuseAfter s offer rest,
        marks.insertAll s (Tree.fusedAfter s offer rest)) := by
  induction rest generalizing before offer marks with
  | nil => rfl
  | cons item rest ih =>
    have hrest := ih fun n hn => hb n (List.mem_cons_of_mem _ hn)
    rw [List.length_cons, List.range'_succ, List.foldlM_cons]
    cases item with
    | block b =>
      have hr := hrest (before ++ [.block b]) (b.comparison? s) marks
      simp only [List.append_assoc, List.length_append, List.length_singleton] at hr
      rw [Tree.attachFirst, fuseItem?_block]
      exact hr
    | node n =>
      have hn := hb n List.mem_cons_self offer (marks.insertAll s (n.taken offer))
      have hr := hrest (before ++ [.node ((n.fuse s).attach offer)]) none
        ((marks.insertAll s (n.taken offer)).insertAll s (n.fused s))
      rw [Tree.attachFirst_none, Tree.taken_none] at hr
      simp only [List.append_assoc, List.length_append, List.length_singleton] at hr
      rw [Tree.attachFirst, Tree.taken, fuseItem?_node hn, Tree.fusedAfter, Marks.insertAll_append,
        Marks.insertAll_append]
      exact hr

theorem fuseItems?_eq (items : List Item)
    (hb : ∀ n, .node n ∈ items → ∀ offer marks, below (n.attach offer) marks =
      some ((n.fuse s).attach offer, marks.insertAll s (n.fused s))) (marks : Marks) :
    fuseItems? s below items marks =
      some (Tree.fuseAfter s none items, marks.insertAll s (Tree.fusedAfter s none items)) := by
  have h := foldlM_fuseItem? items hb [] none marks
  rw [Tree.attachFirst_none, Tree.taken_none] at h
  rw [fuseItems?, List.range_eq_range']
  exact h

end Loop

mutual

def Node.height : Node → Nat
  | .seq items => Tree.height items + 1
  | .ifElse _ body otherwise => max (Tree.height body) (Tree.height otherwise) + 1
  | .loop body _ epilog => max (Tree.height body) (epilogHeight epilog) + 1
  | .ifGoto .. | .andIf _ | .jump _ | .comment _ => 1

def Tree.height : List Item → Nat
  | [] => 0
  | .block _ :: items => Tree.height items
  | .node n :: items => max n.height (Tree.height items)

def epilogHeight : Option Node → Nat
  | none => 0
  | some n => n.height

end

theorem Tree.height_le_of_mem {n : Node} {items : List Item} (h : .node n ∈ items) :
    n.height ≤ Tree.height items := by
  induction items with
  | nil => cases h
  | cons item items ih =>
    cases item with
    | block b => exact ih ((List.mem_cons.mp h).resolve_left nofun)
    | node m =>
      rw [Tree.height]
      obtain h | h := List.mem_cons.mp h
      · cases h
        exact Nat.le_max_left _ _
      · exact Nat.le_trans (ih h) (Nat.le_max_right _ _)

theorem fuseNode?_eq (s : Stream) (depth : Nat) (n : Node) (hd : n.height ≤ depth)
    (offer : Option Nat) (marks : Marks) :
    fuseNode? s depth (n.attach offer) marks =
      some ((n.fuse s).attach offer, marks.insertAll s (n.fused s)) := by
  induction depth generalizing n offer marks with
  | zero => cases n <;> simp [Node.height] at hd
  | succ depth ih =>
    -- A branch holds only nodes that are nested less deep.
    have hitems : ∀ items, Tree.height items ≤ depth → ∀ marks,
        fuseItems? s (fuseNode? s depth) items marks =
          some (Tree.fuseAfter s none items, marks.insertAll s (Tree.fusedAfter s none items)) := by
      intro items hi
      apply fuseItems?_eq
      intro n hn
      exact ih n (Nat.le_trans (Tree.height_le_of_mem hn) hi)
    cases n with
    | seq items =>
      rw [Node.height, Nat.add_le_add_iff_right] at hd
      rw [Node.attach_of_not_conditional rfl, Node.attach_of_not_conditional rfl]
      simp [fuseNode?, hitems items hd, Node.fuse, Node.fused]
    | ifElse test body otherwise =>
      rw [Node.height, Nat.add_le_add_iff_right, Nat.max_le] at hd
      rw [Node.attach_ifElse, Node.fuse, Node.attach_ifElse]
      simp [fuseNode?, hitems body hd.1, hitems otherwise hd.2, Node.fused, Marks.insertAll_append]
    | loop body infinite epilog =>
      rw [Node.height, Nat.add_le_add_iff_right, Nat.max_le] at hd
      rw [Node.attach_of_not_conditional rfl, Node.attach_of_not_conditional rfl]
      cases epilog with
      | none => simp [fuseNode?, hitems body hd.1, Node.fuse, Node.fused, fuseEpilog, fusedEpilog]
      | some n =>
        have hn := ih n hd.2 none
        simp only [Node.attach] at hn
        simp [fuseNode?, hitems body hd.1, hn, Node.fuse, Node.fused, fuseEpilog, fusedEpilog,
          Marks.insertAll_append]
    | ifGoto test target =>
      rw [Node.fuse, Node.attach_ifGoto]
      rfl
    | andIf test =>
      rw [Node.fuse, Node.attach_andIf]
      rfl
    | jump target | comment text =>
      rw [Node.attach_of_not_conditional rfl, Node.attach_of_not_conditional rfl]
      rfl

namespace Findings

variable (f : Findings) (s : Stream) (t : Tree)

def fuse? : Option (Tree × Findings × Nat) := do
  let (tree, marks) ← fuseItems? s (fuseNode? s (Tree.height t)) t f.fused
  let count ← marks.size.psub f.fused.size
  return (tree, { f with fused := marks }, count)

def recoverSlots? : Option (Findings × Nat) := do
  let named := f.recoverSlots s t
  let count ← named.slots.size.psub f.slots.size
  return (named, count)

theorem size_le_size_fuse : f.fused.size ≤ (f.fuse s t).fused.size := by
  have hs : f.fused.toList ⊆ (f.fuse s t).fused.toList := by
    intro a ha
    rw [← Marks.contains_iff] at ha ⊢
    exact (contains_fuse f s t a).mpr (.inl ha)
  exact (List.subperm_of_subset f.fused.nodup_toList hs).length_le

theorem fuse?_eq : f.fuse? s t = some (t.fuse s, f.fuse s t, f.fuseCount s t) := by
  have hi := fuseItems?_eq t (fun n hn => fuseNode?_eq s _ n (Tree.height_le_of_mem hn)) f.fused
  have hc : (f.fuse s t).fused.size.psub f.fused.size = some (f.fuseCount s t) :=
    Nat.psub_eq_some.mpr (Nat.sub_add_cancel (size_le_size_fuse f s t))
  have hm : f.fused.insertAll s (Tree.fusedAfter s none t) = (f.fuse s t).fused := rfl
  rw [fuse?, hi, hm]
  dsimp only [Option.bind_eq_bind, Option.bind_some]
  rw [hc]
  rfl

theorem recoverSlots?_eq : f.recoverSlots? s t = some (f.recoverSlots s t, f.slotCount s t) := by
  have hl : f.slots.size ≤ (f.recoverSlots s t).slots.size := by
    rw [recoverSlots, SlotTable.discoverAll_eq_append, SlotTable.size, SlotTable.size,
      List.length_append]
    exact Nat.le_add_right _ _
  have hc : (f.recoverSlots s t).slots.size.psub f.slots.size = some (f.slotCount s t) :=
    Nat.psub_eq_some.mpr (Nat.sub_add_cancel hl)
  rw [recoverSlots?, hc]
  rfl

end Findings

/-- All of these references lie inside the stream. -/
def Reference.Valid (s : Stream) (rs : List Reference) : Prop :=
  ∀ r ∈ rs, r.fault? s.length = none

theorem Reference.valid_append {s : Stream} {rs qs : List Reference} :
    Valid s (rs ++ qs) ↔ Valid s rs ∧ Valid s qs :=
  List.forall_mem_append

section Valid

variable {s : Stream}

theorem Test.valid_offered {test : Test} {offer : Option Nat}
    (ho : ∀ h, offer = some h → ∃ i, s.get? h = some i) (hv : Reference.Valid s test.references) :
    Reference.Valid s (test.offered offer).references := by
  cases offer with
  | none => exact hv
  | some h =>
    obtain ⟨i, hi⟩ := ho h rfl
    have hh : (Reference.comparison h).fault? s.length = none :=
      if_neg (Nat.not_lt.mpr (Stream.get?_eq_some_lt hi))
    refine List.forall_mem_cons.mpr ⟨(List.forall_mem_cons.mp hv).1, ?_⟩
    exact List.forall_mem_singleton.mpr hh

mutual

theorem Node.valid_fuse : ∀ (n : Node) (offer : Option Nat),
    (∀ h, offer = some h → ∃ i, s.get? h = some i) → Reference.Valid s n.references →
      Reference.Valid s ((n.fuse s).attach offer).references
  | .seq items, _, _, hv => by
    rw [Node.attach_of_not_conditional rfl]
    exact Tree.valid_fuseAfter items none nofun hv
  | .ifGoto test _, offer, ho, hv => by
    rw [Node.fuse, Node.attach_ifGoto]
    exact Test.valid_offered ho hv
  | .andIf test, offer, ho, hv => by
    rw [Node.fuse, Node.attach_andIf]
    exact Test.valid_offered ho hv
  | .ifElse test body otherwise, offer, ho, hv => by
    rw [Node.references, Reference.valid_append, Reference.valid_append] at hv
    rw [Node.fuse, Node.attach_ifElse, Node.references, Reference.valid_append,
      Reference.valid_append]
    exact ⟨⟨Test.valid_offered ho hv.1.1, Tree.valid_fuseAfter body none nofun hv.1.2⟩,
      Tree.valid_fuseAfter otherwise none nofun hv.2⟩
  | .loop body _ epilog, _, _, hv => by
    rw [Node.references, Reference.valid_append] at hv
    rw [Node.attach_of_not_conditional rfl, Node.fuse, Node.references, Reference.valid_append]
    exact ⟨Tree.valid_fuseAfter body none nofun hv.1, valid_fuseEpilog epilog hv.2⟩
  | .jump _, _, _, hv | .comment _, _, _, hv => by
    rw [Node.attach_of_not_conditional rfl]
    exact hv

theorem Tree.valid_fuseAfter : ∀ (items : List Item) (offer : Option Nat),
    (∀ h, offer = some h → ∃ i, s.get? h = some i) → Reference.Valid s (Tree.references items) →
      Reference.Valid s (Tree.references (Tree.fuseAfter s offer items))
  | [], _, _, hv => hv
  | .block b :: items, _, _, hv => by
    have ho : ∀ h, b.comparison? s = some h → ∃ i, s.get? h = some i := by
      intro h hc
      obtain ⟨-, -, i, hi, -⟩ := Block.comparison?_eq_some hc
      exact ⟨i, hi⟩
    rw [Tree.references, Reference.valid_append] at hv
    rw [Tree.fuseAfter, Tree.references, Reference.valid_append]
    exact ⟨hv.1, Tree.valid_fuseAfter items (b.comparison? s) ho hv.2⟩
  | .node n :: items, offer, ho, hv => by
    rw [Tree.references, Reference.valid_append] at hv
    rw [Tree.fuseAfter, Tree.references, Reference.valid_append]
    exact ⟨Node.valid_fuse n offer ho hv.1, Tree.valid_fuseAfter items none nofun hv.2⟩

theorem valid_fuseEpilog : ∀ epilog : Option Node,
    Reference.Valid s (epilogReferences epilog) →
      Reference.Valid s (epilogReferences (fuseEpilog s epilog))
  | none, hv => hv
  | some n, hv => Node.valid_fuse n none nofun hv

end

theorem Tree.validate_fuse {t : Tree} (hv : t.validate s = .ok ()) :
    (t.fuse s).validate s = .ok () := by
  rw [Tree.validate_eq_ok] at hv ⊢
  exact Tree.valid_fuseAfter t none nofun hv

end Valid

def Tree.colors? (t : Tree) (s : Stream) (edges : Edges) : Option Colors :=
  (Tree.tour s edges (fun w a => w.bind (·.pick? a)) t (some Wheel.fresh)).map fun w =>
    ⟨w.given.entries.map Prod.fst⟩

theorem Tree.colors?_eq (t : Tree) (s : Stream) (edges : Edges) :
    t.colors? s edges = some (t.colors s edges) := by
  rw [Tree.colors?, Tree.tour_pick?, Option.map_some, Wheel.ofColors]
  dsimp only
  rw [Wheel.keys_entriesFrom]

namespace Config

variable (c : Config) (image : Image) (symbols : Symbols) (name : String) (s : Stream) (t : Tree)

def fuse? (start : Findings) : Option (Tree × Findings) :=
  if c.runs .conditionFusion then (start.fuse? s t).map fun (tree, fused, _) => (tree, fused)
  else some (t, start)

def recoverSlots? (fused : Findings) : Option Findings :=
  if c.runs .stackSlots then (fused.recoverSlots? s t).map Prod.fst else some fused

/-- The enabled passes in their order, with every look-up checked. -/
def decompile? : Option Recovered := do
  let (tree, fused) ← c.fuse? s t (.start c.stem)
  let named ← c.recoverSlots? s tree fused
  let guarded :=
    if c.runs .canaryGuard then named.recoverCanary c.canary symbols s else (named, none)
  return ⟨tree, guarded.1, guarded.2⟩

def style? (edges : Edges) : Option Style :=
  if c.colors then (t.colors? s edges).map fun colors => ⟨c.indent, c.comments, some colors⟩
  else some ⟨c.indent, c.comments, none⟩

/-- The text of a function, with every colour looked up in the palette. -/
def render? (r : Recovered) : Option String := do
  let style ← c.style? s r.tree image.edges
  let scene : Scene := ⟨image.arch, s, r.findings.slots, image.symbols⟩
  return Line.renderAll scene style (Line.ofFunction s r.findings name r.tree)

theorem fuse?_eq (start : Findings) :
    c.fuse? s t start =
      some (if c.runs .conditionFusion then t.fuse s else t,
        if c.runs .conditionFusion then start.fuse s t else start) := by
  rw [fuse?, Findings.fuse?_eq]
  split <;> rfl

theorem recoverSlots?_eq (fused : Findings) :
    c.recoverSlots? s t fused =
      some (if c.runs .stackSlots then fused.recoverSlots s t else fused) := by
  rw [recoverSlots?, Findings.recoverSlots?_eq]
  split <;> rfl

theorem decompile?_eq : c.decompile? symbols s t = some (c.decompile symbols s t) := by
  rw [decompile?, fuse?_eq]
  dsimp only [Option.bind_eq_bind, Option.bind_some]
  rw [recoverSlots?_eq]
  rfl

theorem style?_eq (edges : Edges) : c.style? s t edges = some (c.style edges s t) := by
  rw [style?, Tree.colors?_eq, style]
  split <;> rfl

theorem render?_eq (r : Recovered) :
    c.render? image name s r = some (c.render image name s r) := by
  rw [render?, style?_eq]
  rfl

/-- Over any stream and for any tree, recovery and rendering end with a result when every look-up is
checked, the same one as without the checks. A tree that was valid is valid after its recovery. -/
theorem checked_results_and_validity :
    c.decompile? symbols s t = some (c.decompile symbols s t) ∧
    (∀ r, c.render? image name s r = some (c.render image name s r)) ∧
    (t.validate s = .ok () → (c.decompile symbols s t).tree.validate s = .ok ()) := by
  refine ⟨decompile?_eq c symbols s t, render?_eq c image name s, fun hv => ?_⟩
  rw [decompile]
  dsimp only
  split
  · exact Tree.validate_fuse hv
  · exact hv

def comparedGoto : Tree :=
  [.block ⟨0, 1⟩, .node (.ifGoto ⟨1, .equal, none⟩ 0x1000)]

theorem checked_results_and_validity_comparedGoto :
    comparedGoto.validate Findings.comparedJump = .ok () ∧
    (default.decompile .empty Findings.comparedJump comparedGoto).tree.attached = [0] ∧
    (default.decompile .empty Findings.comparedJump comparedGoto).tree.validate
      Findings.comparedJump = .ok () := by
  have hv : comparedGoto.validate Findings.comparedJump = .ok () := rfl
  exact ⟨hv, rfl, (checked_results_and_validity default ⟨.x86_64, .empty, .empty⟩ .empty "f"
    Findings.comparedJump comparedGoto).2.2 hv⟩

end Config

end Pseudocode
