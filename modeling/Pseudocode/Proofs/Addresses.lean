import Mathlib.Order.Bounds.Basic
import Pseudocode.Proofs.Stream
import Pseudocode.Proofs.Table

namespace Pseudocode

/-- The positions of instructions that do not lie before the instruction behind them. -/
def drops (is : List Instruction) : Set Nat :=
  {k | ∃ a b, is[k]? = some a ∧ is[k + 1]? = some b ∧ b.address ≤ a.address}

def Error.ofDrop (previous i : Instruction) : Error :=
  if i.address = previous.address then .duplicateAddress i.address
  else .unorderedAddress previous.address i.address

section Drops

variable {a b : Instruction} {is : List Instruction}

theorem isLeast_drops_zero (h : b.address ≤ a.address) : IsLeast (drops (a :: b :: is)) 0 :=
  ⟨⟨a, b, rfl, rfl, h⟩, fun k _ => Nat.zero_le k⟩

theorem zero_not_mem_drops (h : a.address < b.address) : 0 ∉ drops (a :: b :: is) := by
  rintro ⟨c, d, hc, hd, hle⟩
  cases hc
  cases hd
  exact absurd h (UInt64.not_lt.mpr hle)

theorem isLeast_drops_succ (h : a.address < b.address) (k : Nat) :
    IsLeast (drops (a :: b :: is)) (k + 1) ↔ IsLeast (drops (b :: is)) k := by
  have hsucc : ∀ j, j + 1 ∈ drops (a :: b :: is) ↔ j ∈ drops (b :: is) := fun _ => Iff.rfl
  constructor
  · rintro ⟨hk, hl⟩
    exact ⟨(hsucc k).mp hk, fun j hj => Nat.le_of_succ_le_succ (hl ((hsucc j).mpr hj))⟩
  · rintro ⟨hk, hl⟩
    refine ⟨(hsucc k).mpr hk, fun j hj => ?_⟩
    cases j with
    | zero => exact absurd hj (zero_not_mem_drops h)
    | succ j => exact Nat.succ_le_succ (hl ((hsucc j).mp hj))

theorem orderFault?_of_le (h : b.address ≤ a.address) :
    orderFault? (a :: b :: is) = some (.ofDrop a b) := by
  rw [orderFault?, Error.ofDrop]
  by_cases heq : b.address = a.address
  · rw [if_pos heq, if_pos heq]
  · rw [if_neg heq, if_neg heq, if_pos (UInt64.lt_of_le_of_ne h heq)]

theorem orderFault?_of_lt (h : a.address < b.address) :
    orderFault? (a :: b :: is) = orderFault? (b :: is) := by
  rw [orderFault?, if_neg (UInt64.ne_of_lt h).symm, if_neg (UInt64.lt_asymm h)]

end Drops

theorem orderFault?_eq_some_iff (is : List Instruction) (e : Error) :
    orderFault? is = some e ↔
      ∃ k a b, IsLeast (drops is) k ∧ is[k]? = some a ∧ is[k + 1]? = some b ∧
        e = .ofDrop a b := by
  match is with
  | [] => simp [orderFault?]
  | [a] => simp [orderFault?]
  | a :: b :: rest =>
    by_cases h : a.address < b.address
    · rw [orderFault?_of_lt h, orderFault?_eq_some_iff (b :: rest) e]
      constructor
      · rintro ⟨k, c, d, hk, hc, hd, he⟩
        exact ⟨k + 1, c, d, (isLeast_drops_succ h k).mpr hk, hc, hd, he⟩
      · rintro ⟨k, c, d, hk, hc, hd, he⟩
        cases k with
        | zero => exact absurd hk.1 (zero_not_mem_drops h)
        | succ k => exact ⟨k, c, d, (isLeast_drops_succ h k).mp hk, hc, hd, he⟩
    · have hle := UInt64.not_lt.mp h
      rw [orderFault?_of_le hle]
      constructor
      · intro he
        cases he
        exact ⟨0, a, b, isLeast_drops_zero hle, rfl, rfl, rfl⟩
      · rintro ⟨k, c, d, hk, hc, hd, rfl⟩
        obtain rfl := hk.unique (isLeast_drops_zero hle)
        cases hc
        cases hd
        rfl

theorem orderFault?_eq_none_iff (is : List Instruction) :
    orderFault? is = none ↔ is.Pairwise fun a b => a.address < b.address := by
  refine ⟨pairwise_of_orderFault?, fun hp => ?_⟩
  rw [Option.eq_none_iff_forall_ne_some]
  intro e he
  obtain ⟨k, -, -, ⟨⟨a, b, ha, hb, hle⟩, -⟩, -⟩ := (orderFault?_eq_some_iff is e).mp he
  obtain ⟨hk, rfl⟩ := List.getElem?_eq_some_iff.mp ha
  obtain ⟨hk', rfl⟩ := List.getElem?_eq_some_iff.mp hb
  have hlt := List.pairwise_iff_getElem.mp hp k (k + 1) hk hk' (Nat.lt_succ_self k)
  exact absurd hlt (UInt64.not_lt.mpr hle)

namespace Stream

theorem ofList_eq_ok_iff (is : List Instruction) (s : Stream) :
    ofList is = .ok s ↔ s.instructions = is := by
  rw [ofList]
  constructor
  · intro h
    split at h
    · cases h
      rfl
    · cases h
  · rintro rfl
    split
    · rfl
    next e he =>
      rw [s.ordered] at he
      cases he

theorem ofList_eq_error_iff (is : List Instruction) (e : Error) :
    ofList is = .error e ↔ orderFault? is = some e := by
  rw [ofList]
  split
  next h => simp [h]
  next e' h => simp [h]

def keyed (is : List Instruction) : Table UInt64 Instruction :=
  ⟨is.map fun i => (i.address, i)⟩

/-- Puts an instruction under its address, if that lies behind the last address of the table. -/
def enter (t : Table UInt64 Instruction) (i : Instruction) :
    Except Error (Table UInt64 Instruction) :=
  match t.entries.getLast? with
  | none => .ok (t.insert i.address i)
  | some (previous, _) =>
    if i.address = previous then .error (.duplicateAddress i.address)
    else if i.address < previous then .error (.unorderedAddress previous i.address)
    else .ok (t.insert i.address i)

theorem getLast?_entries_keyed (before : List Instruction) (last : Instruction) :
    (keyed (before ++ [last])).entries.getLast? = some (last.address, last) := by
  simp [keyed]

theorem address_lt_of_last_lt {before : List Instruction} {last i : Instruction}
    (hp : (before ++ [last]).Pairwise fun a b => a.address < b.address)
    (h : last.address < i.address) : ∀ j ∈ before ++ [last], j.address < i.address := by
  intro j hj
  obtain hj | hj := List.mem_append.mp hj
  · have hlt := (List.pairwise_append.mp hp).2.2 j hj last List.mem_cons_self
    exact UInt64.lt_trans hlt h
  · rw [List.mem_singleton.mp hj]
    exact h

theorem enter_of_le {before : List Instruction} {last i : Instruction}
    (h : i.address ≤ last.address) :
    enter (keyed (before ++ [last])) i = .error (.ofDrop last i) := by
  rw [enter, getLast?_entries_keyed, Error.ofDrop]
  dsimp only
  by_cases heq : i.address = last.address
  · rw [if_pos heq, if_pos heq]
  · rw [if_neg heq, if_neg heq, if_pos (UInt64.lt_of_le_of_ne h heq)]

theorem enter_of_lt {before : List Instruction} {last i : Instruction}
    (hp : (before ++ [last]).Pairwise fun a b => a.address < b.address)
    (h : last.address < i.address) :
    enter (keyed (before ++ [last])) i = .ok (keyed (before ++ [last] ++ [i])) := by
  have hn : i.address ∉ (keyed (before ++ [last])).entries.map Prod.fst := by
    simp only [keyed, List.map_map, List.mem_map, not_exists, not_and]
    intro j hj
    exact UInt64.ne_of_lt (address_lt_of_last_lt hp h j hj)
  rw [enter, getLast?_entries_keyed]
  dsimp only
  rw [if_neg (UInt64.ne_of_lt h).symm, if_neg (UInt64.lt_asymm h), Table.insert,
    Table.put_of_not_mem hn]
  simp [keyed]

theorem foldlM_enter_of_pairwise (is : List Instruction) (before : List Instruction)
    (last : Instruction)
    (hp : (before ++ [last]).Pairwise fun a b => a.address < b.address) :
    is.foldlM enter (keyed (before ++ [last])) =
      match orderFault? (last :: is) with
      | none => .ok (keyed (before ++ last :: is))
      | some e => .error e := by
  induction is generalizing before last with
  | nil => rfl
  | cons i is ih =>
    rw [List.foldlM_cons]
    by_cases h : last.address < i.address
    · have hp' : (before ++ [last] ++ [i]).Pairwise fun a b => a.address < b.address := by
        refine List.pairwise_append.mpr ⟨hp, List.pairwise_singleton _ i, fun j hj k hk => ?_⟩
        rw [List.mem_singleton.mp hk]
        exact address_lt_of_last_lt hp h j hj
      rw [enter_of_lt hp h, orderFault?_of_lt h]
      have hr := ih _ i hp'
      rwa [List.append_assoc before [last] (i :: is)] at hr
    · have hle := UInt64.not_lt.mp h
      rw [enter_of_le hle, orderFault?_of_le hle]
      rfl

/-- A table that takes the instructions one by one refuses what a stream refuses, and otherwise holds
every instruction under its address and at its handle. -/
theorem foldlM_enter_empty (is : List Instruction) :
    is.foldlM enter .empty = (ofList is).map fun s => keyed s.instructions := by
  cases is with
  | nil => rfl
  | cons i is =>
    have hf : enter .empty i = .ok (keyed ([] ++ [i])) := rfl
    have hr := foldlM_enter_of_pairwise is [] i (List.pairwise_singleton _ i)
    rw [List.foldlM_cons, hf]
    refine hr.trans ?_
    cases h : orderFault? (i :: is) with
    | none =>
      have ho : ofList (i :: is) = .ok ⟨i :: is, h⟩ := (ofList_eq_ok_iff _ _).mpr rfl
      rw [ho]
      rfl
    | some e =>
      rw [(ofList_eq_error_iff _ e).mpr h]
      rfl

section Lookup

variable (s : Stream)

theorem positionOf?_eq_some_iff (a : UInt64) (k : Nat) :
    s.positionOf? a = some k ↔ ∃ i, s.get? k = some i ∧ i.address = a := by
  rw [positionOf?, List.findIdx?_eq_some_iff_getElem]
  constructor
  · rintro ⟨hk, ha, -⟩
    exact ⟨_, List.getElem?_eq_getElem hk, by simpa using ha⟩
  · rintro ⟨i, hi, rfl⟩
    obtain ⟨hk, rfl⟩ := List.getElem?_eq_some_iff.mp hi
    refine ⟨hk, by simp, fun j hj => ?_⟩
    have hlt := address_lt (List.getElem?_eq_getElem (Nat.lt_trans hj hk)) hi hj
    simpa using UInt64.ne_of_lt hlt

theorem positionOf?_eq_none_iff (a : UInt64) :
    s.positionOf? a = none ↔ ∀ i ∈ s.instructions, i.address ≠ a := by
  rw [positionOf?, List.findIdx?_eq_none_iff]
  simp

theorem atAddress?_eq_none_iff (a : UInt64) :
    s.atAddress? a = none ↔ ∀ i ∈ s.instructions, i.address ≠ a := by
  rw [atAddress?, List.find?_eq_none]
  simp

theorem atAddress?_eq_bind (a : UInt64) : s.atAddress? a = (s.positionOf? a).bind s.get? := by
  cases hp : s.positionOf? a with
  | none =>
    rw [Option.bind_none, atAddress?_eq_none_iff, ← positionOf?_eq_none_iff]
    exact hp
  | some k =>
    obtain ⟨hk, ha, hj⟩ := List.findIdx?_eq_some_iff_getElem.mp hp
    rw [atAddress?, Option.bind_some, get?, List.getElem?_eq_getElem hk,
      List.find?_eq_some_iff_getElem]
    exact ⟨ha, k, hk, rfl, fun j hlt => by simpa using hj j hlt⟩

theorem get?_keyed (a : UInt64) : (keyed s.instructions).get? a = s.atAddress? a := by
  rw [Table.get?, atAddress?, keyed]
  induction s.instructions with
  | nil => rfl
  | cons i is ih =>
    rw [List.map_cons, Table.find?, ih, List.find?_cons]
    by_cases h : i.address = a <;> simp [h]

theorem isSome_slice? (a b : Nat) : (s.slice? a b).isSome = true ↔ a ≤ b ∧ b ≤ s.length := by
  rw [slice?]
  split
  next h => exact iff_of_true rfl h
  next h => exact iff_of_false nofun h

theorem getElem?_of_slice? {a b : Nat} {is : List Instruction} (h : s.slice? a b = some is) :
    is.length = b - a ∧ ∀ k, k < b - a → is[k]? = s.get? (a + k) := by
  rw [slice?] at h
  split at h
  next hb =>
    cases h
    rw [length] at hb
    refine ⟨?_, fun k hk => ?_⟩
    · rw [List.length_take, List.length_drop]
      omega
    · rw [List.getElem?_take_of_lt hk, List.getElem?_drop, get?]
  next => cases h

end Lookup

/-- A list makes a stream exactly if its addresses increase, and is refused for its first drop
otherwise; a table that takes the instructions one by one decides the same. The handles of a stream
are the positions in the list. Every address of the list leads to its handle and its instruction, no
other address leads anywhere, and a slice holds the instructions between two handles. -/
theorem ofList_ascending_and_lookups (is : List Instruction) :
    ((∃ s, ofList is = .ok s) ↔ is.Pairwise fun a b => a.address < b.address) ∧
    (∀ e, ofList is = .error e ↔
      ∃ k a b, IsLeast (drops is) k ∧ is[k]? = some a ∧ is[k + 1]? = some b ∧
        e = if b.address = a.address then .duplicateAddress b.address
          else .unorderedAddress a.address b.address) ∧
    is.foldlM enter .empty = (ofList is).map (fun s => keyed s.instructions) ∧
    ∀ s, ofList is = .ok s →
      (∀ k, s.get? k = is[k]?) ∧
      (∀ k, s.get? k = none ↔ is.length ≤ k) ∧
      (∀ a k, s.positionOf? a = some k ↔ ∃ i, s.get? k = some i ∧ i.address = a) ∧
      (∀ a, s.positionOf? a = none ↔ ∀ i ∈ is, i.address ≠ a) ∧
      (∀ a, s.atAddress? a = none ↔ ∀ i ∈ is, i.address ≠ a) ∧
      (∀ a, s.atAddress? a = (s.positionOf? a).bind s.get?) ∧
      (∀ a, s.atAddress? a = (keyed is).get? a) ∧
      (∀ a b, (s.slice? a b).isSome = true ↔ a ≤ b ∧ b ≤ is.length) ∧
      ∀ a b part, s.slice? a b = some part →
        part.length = b - a ∧ ∀ k, k < b - a → part[k]? = is[a + k]? := by
  refine ⟨?_, ?_, foldlM_enter_empty is, ?_⟩
  · rw [← orderFault?_eq_none_iff]
    constructor
    · rintro ⟨s, hs⟩
      rw [← (ofList_eq_ok_iff is s).mp hs]
      exact s.ordered
    · intro h
      exact ⟨⟨is, h⟩, (ofList_eq_ok_iff is _).mpr rfl⟩
  · intro e
    rw [ofList_eq_error_iff, orderFault?_eq_some_iff]
    rfl
  · intro s hs
    obtain rfl := (ofList_eq_ok_iff is s).mp hs
    exact ⟨fun _ => rfl, fun k => List.getElem?_eq_none_iff, positionOf?_eq_some_iff s,
      positionOf?_eq_none_iff s, atAddress?_eq_none_iff s, atAddress?_eq_bind s,
      fun a => (get?_keyed s a).symm, isSome_slice? s, fun a b part => getElem?_of_slice? s⟩

def moveAt (address : UInt64) : Instruction :=
  ⟨address, 4, [], .move, "mov", [], .sequential⟩

theorem ofList_ascending_and_lookups_moves :
    (∃ s, ofList [moveAt 0x1000, moveAt 0x1004] = .ok s ∧ s.positionOf? 0x1004 = some 1 ∧
      s.atAddress? 0x1002 = none ∧ (s.slice? 1 2).isSome = true) ∧
    ofList [moveAt 0x1000, moveAt 0x1004, moveAt 0x1002, moveAt 0x1002] =
      .error (.unorderedAddress 0x1004 0x1002) := by
  obtain ⟨⟨-, hok⟩, -, -, hlook⟩ := ofList_ascending_and_lookups [moveAt 0x1000, moveAt 0x1004]
  obtain ⟨s, hs⟩ := hok (by decide)
  obtain ⟨hget, -, hpos, -, hat, -, -, hslice, -⟩ := hlook s hs
  obtain ⟨-, herr, -⟩ :=
    ofList_ascending_and_lookups [moveAt 0x1000, moveAt 0x1004, moveAt 0x1002, moveAt 0x1002]
  refine ⟨⟨s, hs, ?_, ?_, ?_⟩, ?_⟩
  · exact (hpos 0x1004 1).mpr ⟨moveAt 0x1004, hget 1, rfl⟩
  · exact (hat 0x1002).mpr (by decide)
  · exact (hslice 1 2).mpr (by decide)
  · refine (herr _).mpr ⟨1, moveAt 0x1004, moveAt 0x1002, ?_, rfl, rfl, rfl⟩
    exact (isLeast_drops_succ (by decide) 0).mpr (isLeast_drops_zero (by decide))

end Stream

end Pseudocode
