import Pseudocode.Proofs.Recovery.Fusion
import Pseudocode.Proofs.Recovery.Slots

namespace Pseudocode

def Instruction.Accesses (i : Instruction) (d : Int64) : Prop :=
  ∃ op ∈ i.operands, ∃ m, op.asLocal? = some m ∧ m.displacement = d

theorem Instruction.exists_mem_localAccesses (i : Instruction) (d : Int64) :
    (∃ size, (d, size) ∈ i.localAccesses) ↔ i.Accesses d := by
  simp only [localAccesses, List.mem_map, List.mem_filterMap, Prod.mk.injEq, Accesses]
  constructor
  · rintro ⟨size, m, ⟨op, ho, hm⟩, hd, -⟩
    exact ⟨op, ho, m, hm, hd⟩
  · rintro ⟨op, ho, m, hm, hd⟩
    exact ⟨m.size, m, ⟨op, ho, hm⟩, hd, rfl⟩

namespace Reference

theorem mem_instructions_block (s : Stream) (b : Block) (i : Instruction) :
    i ∈ (block b).instructions s ↔ ∃ h ∈ b.handles, s.get? h = some i := by
  rw [instructions, Stream.run_eq, List.map_filterMap, Block.handles, Block.length]
  simp [List.mem_filterMap]

/-- A walk along the references comes to the handle, in a block or as a comparison. -/
def Meet (rs : List Reference) (h : Nat) : Prop :=
  h ∈ covered rs ∨ h ∈ attached rs

theorem meet_append (rs qs : List Reference) (h : Nat) :
    Meet (rs ++ qs) h ↔ Meet rs h ∨ Meet qs h := by
  simp only [Meet, covered_append, attached_append, List.mem_append]
  exact or_or_or_comm

theorem meet_test (test : Test) (h : Nat) :
    Meet test.references h ↔ test.comparison = some h := by
  simp [Meet]

theorem mem_flatMap_instructions (s : Stream) (rs : List Reference) (i : Instruction) :
    i ∈ rs.flatMap (instructions s) ↔ ∃ h, Meet rs h ∧ s.get? h = some i := by
  rw [List.mem_flatMap]
  constructor
  · rintro ⟨r, hr, hi⟩
    cases r with
    | block b =>
      obtain ⟨h, hb, hg⟩ := (mem_instructions_block s b i).mp hi
      exact ⟨h, .inl (mem_covered.mpr ⟨b, hr, hb⟩), hg⟩
    | jump h => cases hi
    | comparison h => exact ⟨h, .inr (mem_attached.mpr hr), Option.mem_toList.mp hi⟩
  · rintro ⟨h, hh | hh, hg⟩
    · obtain ⟨b, hr, hb⟩ := mem_covered.mp hh
      exact ⟨.block b, hr, (mem_instructions_block s b i).mpr ⟨h, hb, hg⟩⟩
    · exact ⟨.comparison h, mem_attached.mp hh, Option.mem_toList.mpr hg⟩

end Reference

/-- Records the accesses at some references, one after the other. -/
def SlotTable.walk (t : SlotTable) (s : Stream) (rs : List Reference) : SlotTable :=
  t.discoverAll ((rs.flatMap (Reference.instructions s)).flatMap Instruction.localAccesses)

namespace SlotTable

theorem walk_append (t : SlotTable) (s : Stream) (rs qs : List Reference) :
    t.walk s (rs ++ qs) = (t.walk s rs).walk s qs := by
  simp only [walk, List.flatMap_append, discoverAll_append]

theorem contains_walk (t : SlotTable) (s : Stream) (rs : List Reference) (d : Int64) :
    (t.walk s rs).contains d = true ↔ t.contains d = true ∨
      ∃ h i, Reference.Meet rs h ∧ s.get? h = some i ∧ i.Accesses d := by
  rw [walk, contains_discoverAll]
  apply or_congr_right
  simp only [List.mem_flatMap (f := Instruction.localAccesses),
    Reference.mem_flatMap_instructions]
  constructor
  · rintro ⟨size, i, ⟨h, hh, hi⟩, ha⟩
    exact ⟨h, i, hh, hi, (i.exists_mem_localAccesses d).mp ⟨size, ha⟩⟩
  · rintro ⟨h, i, hh, hi, ha⟩
    obtain ⟨size, hm⟩ := (i.exists_mem_localAccesses d).mpr ha
    exact ⟨size, i, ⟨h, hh, hi⟩, hm⟩

/-- The table has a slot for every access of the instruction at a handle. -/
def Knows (t : SlotTable) (s : Stream) (h : Nat) : Prop :=
  ∀ i d, s.get? h = some i → i.Accesses d → t.contains d = true

theorem walk_of_knows (t : SlotTable) (s : Stream) (rs : List Reference)
    (hk : ∀ h, Reference.Meet rs h → t.Knows s h) : t.walk s rs = t := by
  apply discoverAll_of_contains
  rintro ⟨d, size⟩ ha
  obtain ⟨i, hi, hm⟩ := List.mem_flatMap.mp ha
  obtain ⟨h, hh, hg⟩ := (Reference.mem_flatMap_instructions s rs i).mp hi
  exact hk h hh i d hg ((i.exists_mem_localAccesses d).mp ⟨size, hm⟩)

theorem knows_walk (t : SlotTable) (s : Stream) (rs : List Reference) (h : Nat)
    (hh : Reference.Meet rs h) : (t.walk s rs).Knows s h := by
  intro i d hi ha
  exact (contains_walk t s rs d).mpr (.inr ⟨h, i, hh, hi, ha⟩)

theorem walk_test (t : SlotTable) (s : Stream) (test : Test)
    (hk : ∀ h, test.comparison = some h → t.Knows s h) : t.walk s test.references = t := by
  apply walk_of_knows
  intro h hh
  exact hk h ((Reference.meet_test test h).mp hh)

theorem walk_offered (t : SlotTable) (s : Stream) (test : Test) (offer : Option Nat)
    (hn : test.comparison = none) (hk : ∀ h, offer = some h → t.Knows s h) :
    t.walk s (test.offered offer).references = t.walk s test.references := by
  have ho : (test.offered offer).comparison = offer := by simp [Test.offered, hn]
  rw [walk_test t s test (by simp [hn]), walk_test]
  rwa [ho]

end SlotTable

mutual

theorem Node.walk_fuse (s : Stream) : ∀ (n : Node) (offer : Option Nat) (t : SlotTable),
    Reference.attached n.references = [] → (∀ h, offer = some h → t.Knows s h) →
      t.walk s ((n.fuse s).attach offer).references = t.walk s n.references
  | .seq items, offer, t, ha, _ => by
    rw [Node.attach_of_not_conditional rfl]
    exact Tree.walk_fuseAfter s items none t ha (by simp)
  | .ifGoto test target, offer, t, ha, hk => by
    have hn : test.comparison = none := by simpa [Node.references] using ha
    rw [Node.fuse, Node.attach_ifGoto]
    exact SlotTable.walk_offered t s test offer hn hk
  | .andIf test, offer, t, ha, hk => by
    have hn : test.comparison = none := by simpa [Node.references] using ha
    rw [Node.fuse, Node.attach_andIf]
    exact SlotTable.walk_offered t s test offer hn hk
  | .ifElse test body otherwise, offer, t, ha, hk => by
    simp only [Node.references, Reference.attached_append, Test.attached_references,
      List.append_eq_nil_iff, Option.toList_eq_nil_iff] at ha
    obtain ⟨⟨hn, hab⟩, hao⟩ := ha
    have ht := SlotTable.walk_offered t s test offer hn hk
    rw [Node.fuse, Node.attach_ifElse, Node.references, Node.references]
    simp only [SlotTable.walk_append, ht]
    rw [Tree.walk_fuseAfter s body none _ hab (by simp),
      Tree.walk_fuseAfter s otherwise none _ hao (by simp)]
  | .jump target, offer, t, _, _ => by
    rw [Node.attach_of_not_conditional rfl]
    rfl
  | .loop body infinite epilog, offer, t, ha, _ => by
    simp only [Node.references, Reference.attached_append, List.append_eq_nil_iff] at ha
    rw [Node.attach_of_not_conditional rfl, Node.fuse, Node.references, Node.references,
      SlotTable.walk_append, SlotTable.walk_append,
      Tree.walk_fuseAfter s body none t ha.1 (by simp), walk_fuseEpilog s epilog _ ha.2]
  | .comment text, offer, t, _, _ => by
    rw [Node.attach_of_not_conditional rfl]
    rfl

/-- From a table that knows what is offered to the first item, a walk through the fused items brings
the same slots in the same order as one through the items themselves. -/
theorem Tree.walk_fuseAfter (s : Stream) : ∀ (items : List Item) (offer : Option Nat)
    (t : SlotTable), Reference.attached (Tree.references items) = [] →
    (∀ h, offer = some h → t.Knows s h) →
      t.walk s (Tree.references (Tree.fuseAfter s offer items)) =
        t.walk s (Tree.references items)
  | [], _, _, _, _ => rfl
  | .block b :: items, offer, t, ha, _ => by
    -- The block has shown the table all that it offers to the item behind it.
    have hk : ∀ h, b.comparison? s = some h → (t.walk s [.block b]).Knows s h := by
      intro h hc
      apply SlotTable.knows_walk
      exact .inl (by simpa using Block.mem_handles_of_comparison? hc)
    rw [Tree.fuseAfter, Tree.references, Tree.references, Item.references,
      SlotTable.walk_append, SlotTable.walk_append]
    exact Tree.walk_fuseAfter s items (b.comparison? s) _ ha hk
  | .node n :: items, offer, t, ha, hk => by
    simp only [Tree.references, Item.references, Reference.attached_append,
      List.append_eq_nil_iff] at ha
    rw [Tree.fuseAfter, Tree.references, Tree.references, Item.references, Item.references,
      SlotTable.walk_append, SlotTable.walk_append, Node.walk_fuse s n offer t ha.1 hk]
    exact Tree.walk_fuseAfter s items none _ ha.2 (by simp)

theorem walk_fuseEpilog (s : Stream) : ∀ (epilog : Option Node) (t : SlotTable),
    Reference.attached (epilogReferences epilog) = [] →
      t.walk s (epilogReferences (fuseEpilog s epilog)) = t.walk s (epilogReferences epilog)
  | none, _, _ => rfl
  | some n, t, ha => Node.walk_fuse s n none t ha (by simp)

end

end Pseudocode
