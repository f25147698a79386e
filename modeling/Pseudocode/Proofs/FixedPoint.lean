import Pseudocode.Decompile
import Pseudocode.Proofs.Recovery.Accesses
import Pseudocode.Proofs.Recovery.Canary

namespace Pseudocode

namespace Node

theorem attach_attach (n : Node) (offer : Option Nat) :
    (n.attach offer).attach offer = n.attach offer := by
  cases offer with
  | none => rfl
  | some h => cases n <;> rfl

theorem fuse_attach (s : Stream) (n : Node) (offer : Option Nat) :
    (n.attach offer).fuse s = (n.fuse s).attach offer := by
  cases offer with
  | none => rfl
  | some h => cases n <;> rfl

theorem fused_attach (s : Stream) (n : Node) (offer : Option Nat) :
    (n.attach offer).fused s = n.fused s := by
  cases offer with
  | none => rfl
  | some h => cases n <;> rfl

theorem taken_attach (n : Node) (offer given : Option Nat) :
    (n.attach offer).taken given = n.taken given := by
  cases offer with
  | none => rfl
  | some h => cases n <;> rfl

theorem taken_fuse (s : Stream) (n : Node) (offer : Option Nat) :
    (n.fuse s).taken offer = n.taken offer := by
  cases n <;> rfl

end Node

mutual

theorem Node.fuse_fuse (s : Stream) : ∀ n : Node, (n.fuse s).fuse s = n.fuse s
  | .seq items => by simp only [Node.fuse, Tree.fuseAfter_fuseAfter s items]
  | .ifElse test body otherwise => by
    simp only [Node.fuse, Tree.fuseAfter_fuseAfter s body, Tree.fuseAfter_fuseAfter s otherwise]
  | .loop body infinite epilog => by
    simp only [Node.fuse, Tree.fuseAfter_fuseAfter s body, fuseEpilog_fuseEpilog s epilog]
  | .ifGoto .. | .andIf _ | .jump _ | .comment _ => rfl

theorem Tree.fuseAfter_fuseAfter (s : Stream) : ∀ (items : List Item) (offer : Option Nat),
    Tree.fuseAfter s offer (Tree.fuseAfter s offer items) = Tree.fuseAfter s offer items
  | [], _ => rfl
  | .block b :: items, _ => by
    simp only [Tree.fuseAfter, Tree.fuseAfter_fuseAfter s items (b.comparison? s)]
  | .node n :: items, offer => by
    simp only [Tree.fuseAfter, Node.fuse_attach, Node.fuse_fuse s n, Node.attach_attach,
      Tree.fuseAfter_fuseAfter s items none]

theorem fuseEpilog_fuseEpilog (s : Stream) : ∀ epilog : Option Node,
    fuseEpilog s (fuseEpilog s epilog) = fuseEpilog s epilog
  | none => rfl
  | some n => by simp only [fuseEpilog, Node.fuse_fuse s n]

end

theorem Tree.fuse_fuse (t : Tree) (s : Stream) : (t.fuse s).fuse s = t.fuse s :=
  Tree.fuseAfter_fuseAfter s t none

mutual

theorem Node.fused_fuse (s : Stream) : ∀ n : Node, (n.fuse s).fused s = n.fused s
  | .seq items => Tree.fusedAfter_fuseAfter s items none
  | .ifElse test body otherwise => by
    simp only [Node.fuse, Node.fused, Tree.fusedAfter_fuseAfter s body,
      Tree.fusedAfter_fuseAfter s otherwise]
  | .loop body infinite epilog => by
    simp only [Node.fuse, Node.fused, Tree.fusedAfter_fuseAfter s body,
      fusedEpilog_fuseEpilog s epilog]
  | .ifGoto .. | .andIf _ | .jump _ | .comment _ => rfl

theorem Tree.fusedAfter_fuseAfter (s : Stream) : ∀ (items : List Item) (offer : Option Nat),
    Tree.fusedAfter s offer (Tree.fuseAfter s offer items) = Tree.fusedAfter s offer items
  | [], _ => rfl
  | .block b :: items, _ => Tree.fusedAfter_fuseAfter s items (b.comparison? s)
  | .node n :: items, offer => by
    simp only [Tree.fuseAfter, Tree.fusedAfter, Node.taken_attach, Node.taken_fuse,
      Node.fused_attach, Node.fused_fuse s n, Tree.fusedAfter_fuseAfter s items none]

theorem fusedEpilog_fuseEpilog (s : Stream) : ∀ epilog : Option Node,
    fusedEpilog s (fuseEpilog s epilog) = fusedEpilog s epilog
  | none => rfl
  | some n => Node.fused_fuse s n

end

theorem Tree.fusedAddresses_fuse (t : Tree) (s : Stream) :
    (t.fuse s).fusedAddresses s = t.fusedAddresses s := by
  have h := Tree.fusedAfter_fuseAfter s t none
  rw [Tree.fusedAddresses, Tree.fusedAddresses, Tree.fuse, h]

theorem insertAscending_of_mem (a : UInt64) (as : List UInt64) (hp : as.Pairwise (· < ·))
    (ha : a ∈ as) : insertAscending a as = as := by
  induction as with
  | nil => cases ha
  | cons b rest ih =>
    obtain ⟨hb, hr⟩ := List.pairwise_cons.mp hp
    by_cases he : a = b
    · subst he
      rw [insertAscending, if_neg (UInt64.lt_irrefl a), if_pos rfl]
    · have hm : a ∈ rest := (List.mem_cons.mp ha).resolve_left he
      have hlt : ¬ a < b := UInt64.lt_asymm (hb a hm)
      rw [insertAscending, if_neg hlt, if_neg he, ih hr hm]

theorem Marks.insert_of_contains (m : Marks) (a : UInt64) (h : m.contains a = true) :
    m.insert a = m := by
  have hm : a ∈ m.toList := by simpa [contains] using h
  obtain ⟨as, hp⟩ := m
  simp only [insert, insertAscending_of_mem a as hp hm]

namespace Findings

theorem fuse_tree_fuse (f : Findings) (s : Stream) (t : Tree) :
    f.fuse s (t.fuse s) = f.fuse s t := by
  rw [fuse, fuse, Tree.fusedAddresses_fuse]

theorem fuse_of_contains (f : Findings) (s : Stream) (t : Tree)
    (h : ∀ a ∈ t.fusedAddresses s, f.fused.contains a = true) : f.fuse s t = f := by
  have hm : (t.fusedAddresses s).foldl Marks.insert f.fused = f.fused := by
    apply foldl_eq_self
    intro a ha
    exact Marks.insert_of_contains f.fused a (h a ha)
  rw [fuse, hm]

theorem recoverSlots_of_knows (f : Findings) (s : Stream) (t : Tree)
    (h : ∀ k, Reference.Meet (Tree.references t) k → f.slots.Knows s k) :
    f.recoverSlots s t = f := by
  have hw : f.slots.walk s (Tree.references t) = f.slots := SlotTable.walk_of_knows _ s _ h
  rw [SlotTable.walk] at hw
  rw [recoverSlots, Tree.localAccesses, hw]

end Findings

/-- A tree in the course of its recovery, with what is known about it. -/
structure Progress where
  tree : Tree
  findings : Findings

inductive Outcome
  | added (count : Nat)
  | canary (found : Option Canary.Match)

namespace Pass

variable (settings : Canary.Settings) (symbols : Symbols) (s : Stream)

def run (p : Progress) : Pass → Progress × Outcome
  | .conditionFusion =>
    (⟨p.tree.fuse s, p.findings.fuse s p.tree⟩, .added (p.findings.fuseCount s p.tree))
  | .stackSlots =>
    (⟨p.tree, p.findings.recoverSlots s p.tree⟩, .added (p.findings.slotCount s p.tree))
  | .canaryGuard =>
    let recovered := p.findings.recoverCanary settings symbols s
    (⟨p.tree, recovered.1⟩, .canary recovered.2)

def runAll : List Pass → Progress → Progress × List Outcome
  | [], p => (p, [])
  | pass :: passes, p =>
    let first := run settings symbols s p pass
    let rest := runAll passes first.1
    (rest.1, first.2 :: rest.2)

/-- What a pass reports when there is nothing left to do. -/
def idle (found : Option Canary.Match) : Pass → Outcome
  | .conditionFusion | .stackSlots => .added 0
  | .canaryGuard => .canary found

theorem runAll_of_idle (p : Progress) (found : Option Canary.Match)
    (h : ∀ pass, run settings symbols s p pass = (p, idle found pass)) (passes : List Pass) :
    runAll settings symbols s passes p = (p, passes.map (idle found)) := by
  induction passes with
  | nil => rfl
  | cons pass passes ih => simp only [runAll, h pass, ih, List.map_cons]

/-- Nothing is left to do once the tree is fused, its tests are marked, its accesses have slots and
the canary has its name. -/
theorem run_idle (t : Tree) (f : Findings) (found : Option Canary.Match) (ht : t.fuse s = t)
    (hm : ∀ a ∈ t.fusedAddresses s, f.fused.contains a = true)
    (hk : ∀ h, Reference.Meet (Tree.references t) h → f.slots.Knows s h)
    (hc : Canary.recover settings symbols s f.slots = (f.slots, found)) (pass : Pass) :
    run settings symbols s ⟨t, f⟩ pass = (⟨t, f⟩, idle found pass) := by
  have hf := Findings.fuse_of_contains f s t hm
  have hr := Findings.recoverSlots_of_knows f s t hk
  cases pass with
  | conditionFusion => simp only [run, idle, Findings.fuseCount, ht, hf, Nat.sub_self]
  | stackSlots => simp only [run, idle, Findings.slotCount, hr, Nat.sub_self]
  | canaryGuard => simp only [run, idle, Findings.recoverCanary, hc]

/-- After one run of all passes, from any findings and for any tree, every further run leaves the
tree and the findings as they are: fusion and the search for slots add nothing, and the canary is
found as it was found first. -/
theorem runAll_all_idle (t : Tree) (f : Findings) :
    ∃ (p : Progress) (marks slots : Nat) (found : Option Canary.Match),
      runAll settings symbols s Pass.all ⟨t, f⟩ =
        (p, [.added marks, .added slots, .canary found]) ∧
      ∀ passes : List Pass,
        runAll settings symbols s passes p = (p, passes.map (idle found)) := by
  let fused := f.fuse s t
  let named := fused.recoverSlots s (t.fuse s)
  let guarded := named.recoverCanary settings symbols s
  refine ⟨⟨t.fuse s, guarded.1⟩, f.fuseCount s t, fused.slotCount s (t.fuse s), guarded.2, rfl, ?_⟩
  intro passes
  apply runAll_of_idle
  apply run_idle
  · exact Tree.fuse_fuse t s
  · intro a ha
    rw [Tree.fusedAddresses_fuse] at ha
    exact (Findings.contains_fuse f s t a).mpr (.inr ha)
  · intro h hh i d hi ha
    have hw : (f.slots.walk s (Tree.references (t.fuse s))).contains d = true :=
      SlotTable.knows_walk _ s _ h hh i d hi ha
    exact (Canary.contains_recover settings symbols s named.slots d).trans hw
  · exact Canary.recover_recover settings symbols s named.slots

end Pass

/-- A tree that comes from a decompilation is decompiled to itself, with the same findings and the
same canary, and reads the same. -/
theorem Config.decompile_decompile (c : Config) (symbols : Symbols) (s : Stream) (t : Tree) :
    c.decompile symbols s (c.decompile symbols s t).tree = c.decompile symbols s t ∧
    ∀ image name,
      c.render image name s (c.decompile symbols s (c.decompile symbols s t).tree) =
        c.render image name s (c.decompile symbols s t) := by
  have h : c.decompile symbols s (c.decompile symbols s t).tree = c.decompile symbols s t := by
    cases hf : c.runs .conditionFusion with
    | false => simp [decompile, hf]
    | true => simp [decompile, hf, Tree.fuse_fuse, Findings.fuse_tree_fuse]
  refine ⟨h, ?_⟩
  intro image name
  rw [h]

end Pseudocode
