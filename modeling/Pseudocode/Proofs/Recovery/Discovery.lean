import Mathlib.Data.List.Induction
import Pseudocode.Proofs.Recovery.Slots
import Pseudocode.Proofs.Stream
import Pseudocode.Recovery.Findings

namespace Pseudocode

mutual

def Item.visits : Item → List Nat
  | .block b => b.handles
  | .node n => n.visits

/-- The instructions that a walk comes to. A conditional comes with its comparison, then its body and
then its alternative, and a loop with its body and then its epilog. -/
def Node.visits : Node → List Nat
  | .seq items => Tree.visits items
  | .ifGoto test _ => test.comparison.toList
  | .andIf test => test.comparison.toList
  | .ifElse test body otherwise =>
    test.comparison.toList ++ Tree.visits body ++ Tree.visits otherwise
  | .loop body _ epilog => Tree.visits body ++ epilogVisits epilog
  | .jump _ | .comment _ => []

def Tree.visits : List Item → List Nat
  | [] => []
  | item :: items => item.visits ++ Tree.visits items

def epilogVisits : Option Node → List Nat
  | none => []
  | some n => n.visits

end

namespace Reference

theorem instructions_block (s : Stream) (b : Block) :
    (block b).instructions s = b.handles.filterMap s.get? := by
  rw [instructions, Stream.run_eq, List.map_filterMap, Block.handles, Block.length]
  congr 1
  funext h
  cases s.get? h <;> rfl

theorem flatMap_instructions_test (s : Stream) (test : Test) :
    test.references.flatMap (instructions s) = test.comparison.toList.filterMap s.get? := by
  cases hc : test.comparison with
  | none => simp [Test.references, hc, instructions]
  | some h => cases hi : s.get? h <;> simp [Test.references, hc, hi, instructions]

end Reference

mutual

theorem Node.flatMap_instructions (s : Stream) : ∀ n : Node,
    n.references.flatMap (Reference.instructions s) = n.visits.filterMap s.get?
  | .seq items => Tree.flatMap_instructions s items
  | .ifGoto test _ => Reference.flatMap_instructions_test s test
  | .andIf test => Reference.flatMap_instructions_test s test
  | .ifElse test body otherwise => by
    have ht := Reference.flatMap_instructions_test s test
    have hb := Tree.flatMap_instructions s body
    have ho := Tree.flatMap_instructions s otherwise
    simp only [Node.references, Node.visits, List.flatMap_append, List.filterMap_append, ht, hb, ho]
  | .loop body _ epilog => by
    have hb := Tree.flatMap_instructions s body
    have he := flatMap_instructions_epilog s epilog
    simp only [Node.references, Node.visits, List.flatMap_append, List.filterMap_append, hb, he]
  | .jump _ | .comment _ => rfl

theorem Tree.flatMap_instructions (s : Stream) : ∀ items : List Item,
    (Tree.references items).flatMap (Reference.instructions s) =
      (Tree.visits items).filterMap s.get?
  | [] => rfl
  | .block b :: items => by
    have hr := Tree.flatMap_instructions s items
    simp only [Tree.references, Item.references, Tree.visits, Item.visits, List.flatMap_append,
      List.filterMap_append, List.flatMap_singleton, Reference.instructions_block, hr]
  | .node n :: items => by
    have hn := Node.flatMap_instructions s n
    have hr := Tree.flatMap_instructions s items
    simp only [Tree.references, Item.references, Tree.visits, Item.visits, List.flatMap_append,
      List.filterMap_append, hn, hr]

theorem flatMap_instructions_epilog (s : Stream) : ∀ epilog : Option Node,
    (epilogReferences epilog).flatMap (Reference.instructions s) =
      (epilogVisits epilog).filterMap s.get?
  | none => rfl
  | some n => Node.flatMap_instructions s n

end

/-- What an operand accesses if it is a local variable. -/
def Operand.localAccess? : Operand → Option (Int64 × UInt8)
  | .memory m => if m.isLocal then some (m.displacement, m.size) else none
  | _ => none

theorem Instruction.localAccesses_eq_filterMap (i : Instruction) :
    i.localAccesses = i.operands.filterMap Operand.localAccess? := by
  rw [localAccesses, List.map_filterMap]
  congr 1
  funext op
  cases op with
  | memory m =>
    have hm : (Operand.memory m).asLocal? = if m.isLocal then some m else none :=
      Option.filter_some ..
    rw [hm, Operand.localAccess?]
    cases m.isLocal <;> rfl
  | _ => rfl

/-- The accesses to local variables of all instructions that a walk comes to, operand by operand. -/
def Tree.visitedAccesses (t : Tree) (s : Stream) : List (Int64 × UInt8) :=
  ((Tree.visits t).filterMap s.get?).flatMap fun i => i.operands.filterMap Operand.localAccess?

theorem Tree.localAccesses_eq_visitedAccesses (t : Tree) (s : Stream) :
    t.localAccesses s = t.visitedAccesses s := by
  have hi : Instruction.localAccesses = fun i => i.operands.filterMap Operand.localAccess? :=
    funext Instruction.localAccesses_eq_filterMap
  rw [Tree.localAccesses, Tree.flatMap_instructions, Tree.visitedAccesses, hi]

section Search

variable (s : Stream)

def Operand.search (op : Operand) (table : SlotTable) : SlotTable :=
  match op.localAccess? with
  | none => table
  | some (displacement, size) => table.discover displacement size

def Stream.search (handle : Nat) (table : SlotTable) : SlotTable :=
  match s.get? handle with
  | none => table
  | some i => i.operands.foldl (fun table op => op.search table) table

mutual

def Item.search : Item → SlotTable → SlotTable
  | .block b, table => b.handles.foldl (fun table h => s.search h table) table
  | .node n, table => n.search table

/-- Records the instructions that are met, each in the table that those before it have left. -/
def Node.search : Node → SlotTable → SlotTable
  | .seq items, table => Tree.search items table
  | .ifGoto test _, table => test.comparison.elim table fun h => s.search h table
  | .andIf test, table => test.comparison.elim table fun h => s.search h table
  | .ifElse test body otherwise, table =>
    Tree.search otherwise
      (Tree.search body (test.comparison.elim table fun h => s.search h table))
  | .loop body _ epilog, table => epilogSearch epilog (Tree.search body table)
  | .jump _, table => table
  | .comment _, table => table

def Tree.search : List Item → SlotTable → SlotTable
  | [], table => table
  | item :: items, table => Tree.search items (item.search table)

def epilogSearch : Option Node → SlotTable → SlotTable
  | none, table => table
  | some n, table => n.search table

end

theorem foldl_search_toList (comparison : Option Nat) (table : SlotTable) :
    comparison.toList.foldl (fun table h => s.search h table) table =
      comparison.elim table fun h => s.search h table := by
  cases comparison <;> rfl

mutual

theorem Node.search_eq_foldl : ∀ (n : Node) (table : SlotTable),
    n.search s table = n.visits.foldl (fun table h => s.search h table) table
  | .seq items, table => Tree.search_eq_foldl items table
  | .ifGoto test _, table => (foldl_search_toList s test.comparison table).symm
  | .andIf test, table => (foldl_search_toList s test.comparison table).symm
  | .ifElse test body otherwise, table => by
    rw [Node.search, Node.visits, List.foldl_append, List.foldl_append, foldl_search_toList,
      Tree.search_eq_foldl body, Tree.search_eq_foldl otherwise]
  | .loop body _ epilog, table => by
    rw [Node.search, Node.visits, List.foldl_append, Tree.search_eq_foldl body,
      epilogSearch_eq_foldl epilog]
  | .jump _, _ | .comment _, _ => rfl

theorem Tree.search_eq_foldl : ∀ (items : List Item) (table : SlotTable),
    Tree.search s items table =
      (Tree.visits items).foldl (fun table h => s.search h table) table
  | [], _ => rfl
  | .block b :: items, table => by
    rw [Tree.search, Tree.visits, List.foldl_append, Tree.search_eq_foldl items, Item.search,
      Item.visits]
  | .node n :: items, table => by
    rw [Tree.search, Tree.visits, List.foldl_append, Tree.search_eq_foldl items, Item.search,
      Node.search_eq_foldl n, Item.visits]

theorem epilogSearch_eq_foldl : ∀ (epilog : Option Node) (table : SlotTable),
    epilogSearch s epilog table =
      (epilogVisits epilog).foldl (fun table h => s.search h table) table
  | none, _ => rfl
  | some n, table => Node.search_eq_foldl n table

end

theorem foldl_search_operands (ops : List Operand) (table : SlotTable) :
    ops.foldl (fun table op => op.search table) table =
      table.discoverAll (ops.filterMap Operand.localAccess?) := by
  rw [SlotTable.discoverAll, List.foldl_filterMap]
  congr 1
  funext table op
  rw [Operand.search]
  cases op.localAccess? <;> rfl

theorem Tree.search_eq_discoverAll (t : Tree) (table : SlotTable) :
    Tree.search s t table = table.discoverAll (t.localAccesses s) := by
  rw [Tree.search_eq_foldl, Tree.localAccesses_eq_visitedAccesses, Tree.visitedAccesses]
  generalize Tree.visits t = handles
  induction handles generalizing table with
  | nil => rfl
  | cons h handles ih =>
    rw [List.foldl_cons, ih, Stream.search]
    cases hi : s.get? h with
    | none => rw [List.filterMap_cons_none hi]
    | some i =>
      rw [List.filterMap_cons_some hi, List.flatMap_cons, SlotTable.discoverAll_append,
        ← foldl_search_operands]

end Search

section First

variable (known : Int64 → Bool)

/-- The access with the number `k` is at a displacement that is not known and that no access before
it has. -/
def isFirst (as : List (Int64 × UInt8)) (a : Int64 × UInt8) (k : Nat) : Bool :=
  !known a.1 && !(as.take k).any (·.1 = a.1)

def firstAccesses (as : List (Int64 × UInt8)) : List (Int64 × UInt8) :=
  (as.zipIdx.filter fun (a, k) => isFirst known as a k).map Prod.fst

theorem isFirst_concat_of_lt (as : List (Int64 × UInt8)) (a b : Int64 × UInt8) {k : Nat}
    (hk : k < as.length) : isFirst known (as ++ [b]) a k = isFirst known as a k := by
  rw [isFirst, List.take_append_of_le_length (Nat.le_of_lt hk), isFirst]

theorem isFirst_concat_length (as : List (Int64 × UInt8)) (a : Int64 × UInt8) :
    isFirst known (as ++ [a]) a as.length = !(known a.1 || as.any (·.1 = a.1)) := by
  rw [isFirst, List.take_left, Bool.not_or]

theorem firstAccesses_concat (as : List (Int64 × UInt8)) (a : Int64 × UInt8) :
    firstAccesses known (as ++ [a]) =
      firstAccesses known as ++ if known a.1 || as.any (·.1 = a.1) then [] else [a] := by
  have hz : (as ++ [a]).zipIdx = as.zipIdx ++ [(a, as.length)] := by
    rw [List.zipIdx_append, Nat.zero_add]
    rfl
  have hf : as.zipIdx.filter (fun (b, k) => isFirst known (as ++ [a]) b k) =
      as.zipIdx.filter fun (b, k) => isFirst known as b k := by
    apply List.filter_congr
    rintro ⟨b, k⟩ hm
    exact isFirst_concat_of_lt known as b a (List.mem_zipIdx' hm).1
  rw [firstAccesses, hz, List.filter_append, hf, List.map_append, firstAccesses]
  congr 1
  have hl := isFirst_concat_length known as a
  cases hk : known a.1 || as.any (·.1 = a.1) with
  | true => simp [hl, hk]
  | false => simp [hl, hk]

end First

namespace SlotTable

/-- The slots that accesses add to the table, numbered on from those that it has. -/
def newSlots (t : SlotTable) (as : List (Int64 × UInt8)) : List Slot :=
  ((firstAccesses t.contains as).zipIdx (t.size + 1)).map fun (a, id) =>
    ⟨id, a.1, t.stem ++ Nat.repr id, a.2⟩

theorem contains_discoverAll_eq_or (t : SlotTable) (as : List (Int64 × UInt8)) (d : Int64) :
    (t.discoverAll as).contains d = (t.contains d || as.any (·.1 = d)) := by
  rw [Bool.eq_iff_iff, contains_discoverAll, Bool.or_eq_true]
  simp

theorem discoverAll_eq_append (t : SlotTable) (as : List (Int64 × UInt8)) :
    t.discoverAll as = ⟨t.stem, t.slots ++ t.newSlots as⟩ := by
  induction as using List.reverseRecOn with
  | nil => simp [discoverAll, newSlots, firstAccesses]
  | append_singleton as a ih =>
    have hc := contains_discoverAll_eq_or t as a.1
    have hd : t.discoverAll (as ++ [a]) = (t.discoverAll as).discover a.1 a.2 :=
      discoverAll_append t as [a]
    rw [hd, newSlots, firstAccesses_concat, ← hc]
    cases hk : (t.discoverAll as).contains a.1 with
    | true =>
      rw [discover_of_contains _ a.1 a.2 hk, ih, if_pos rfl, List.append_nil]
      rfl
    | false =>
      have hs : (t.discoverAll as).size + 1 =
          t.size + 1 + (firstAccesses t.contains as).length := by
        have hl : (t.newSlots as).length = (firstAccesses t.contains as).length := by
          rw [newSlots, List.length_map, List.length_zipIdx]
        rw [ih, size, List.length_append, hl, size]
        omega
      rw [discover_of_not_contains _ a.1 a.2 (by simp [hk]), fresh, hs, ih]
      simp [newSlots, List.zipIdx_append]

end SlotTable

namespace Findings

/-- A search passes the table on through the tree and changes nothing else. It adds slots for the
accesses of a walk: the first access at each displacement without a slot brings a new one of its
size, numbered and named on from the slots that are there. What is counted are the new slots. -/
theorem recoverSlots_appends_newSlots (f : Findings) (s : Stream) (t : Tree) :
    f.recoverSlots s t = ⟨f.fused, Tree.search s t f.slots⟩ ∧
    f.recoverSlots s t =
      ⟨f.fused, f.slots.stem, f.slots.slots ++ f.slots.newSlots (t.visitedAccesses s)⟩ ∧
    f.slotCount s t = (f.slots.newSlots (t.visitedAccesses s)).length := by
  have hr : f.recoverSlots s t =
      ⟨f.fused, f.slots.stem, f.slots.slots ++ f.slots.newSlots (t.visitedAccesses s)⟩ := by
    rw [recoverSlots, Tree.localAccesses_eq_visitedAccesses, SlotTable.discoverAll_eq_append]
  refine ⟨?_, hr, ?_⟩
  · rw [recoverSlots, Tree.search_eq_discoverAll]
  · rw [slotCount, hr, SlotTable.size, SlotTable.size, List.length_append, Nat.add_sub_cancel_left]

example :
    SlotTable.newSlots ⟨"var", [⟨1, -8, "var1_canary", 8⟩]⟩ [(-8, 4), (-16, 2), (-24, 8), (-16, 8)] =
      [⟨2, -16, "var2", 2⟩, ⟨3, -24, "var3", 8⟩] := by decide

end Findings

end Pseudocode
