import Mathlib.Order.Bounds.Basic
import Pseudocode.Proofs.Recovery.Numbering
import Pseudocode.Proofs.Stream
import Pseudocode.Recovery.Findings

namespace Pseudocode

theorem findSome?_window_succ {α β : Type} (f : α → Option β) (l : List α) (start stop : Nat) :
    ((l.take (stop + 1)).drop start).reverse.findSome? f =
      (if start ≤ stop then l[stop]?.bind f else none).or
        (((l.take stop).drop start).reverse.findSome? f) := by
  rw [List.take_add_one, List.drop_append, List.reverse_append, List.findSome?_append]
  congr 1
  cases hl : l[stop]? with
  | none => simp
  | some a =>
    obtain ⟨hlt, -⟩ := List.getElem?_eq_some_iff.mp hl
    rw [List.length_take, Nat.min_eq_left hlt.le]
    by_cases hs : start ≤ stop
    · rw [Nat.sub_eq_zero_of_le hs, if_pos hs]
      simp
    · obtain ⟨n, hn⟩ : ∃ n, start - stop = n + 1 := ⟨start - stop - 1, by omega⟩
      rw [hn, if_neg hs]
      simp

theorem findSome?_window_eq_some_iff {α β : Type} (f : α → Option β) (l : List α) (start stop : Nat)
    (b : β) :
    ((l.take stop).drop start).reverse.findSome? f = some b ↔
      ∃ q a, start ≤ q ∧ q < stop ∧ l[q]? = some a ∧ f a = some b ∧
        ∀ r c, q < r → r < stop → l[r]? = some c → f c = none := by
  induction stop with
  | zero => simp
  | succ stop ih =>
    rw [findSome?_window_succ, Option.or_eq_some_iff, ih]
    constructor
    · rintro (hb | ⟨hn, q, a, hs, hq, hl, hf, hr⟩)
      · split at hb
        · rename_i hs
          obtain ⟨a, hl, hf⟩ := Option.bind_eq_some_iff.mp hb
          exact ⟨stop, a, hs, Nat.lt_succ_self stop, hl, hf, by omega⟩
        · exact absurd hb nofun
      · refine ⟨q, a, hs, Nat.lt_succ_of_lt hq, hl, hf, fun r c hqr hrs hc => ?_⟩
        obtain hlt | rfl := Nat.lt_succ_iff_lt_or_eq.mp hrs
        · exact hr r c hqr hlt hc
        · rw [if_pos (by omega), hc] at hn
          exact hn
    · rintro ⟨q, a, hs, hq, hl, hf, hr⟩
      obtain hlt | rfl := Nat.lt_succ_iff_lt_or_eq.mp hq
      · refine .inr ⟨?_, q, a, hs, hlt, hl, hf, fun r c hqr hrs => hr r c hqr (by omega)⟩
        split
        · cases hc : l[stop]? with
          | none => rfl
          | some c => exact hr stop c hlt (Nat.lt_succ_self stop) hc
        · rfl
      · rw [if_pos hs, hl]
        exact .inl hf

namespace Instruction

/-- The instruction calls the address of its first operand or, if that has none, the address in its
control flow. -/
def Calls (i : Instruction) (target : UInt64) : Prop :=
  i.isCall = true ∧
    (i.operands.head?.bind Operand.directTarget? = some target ∨
      i.operands.head?.bind Operand.directTarget? = none ∧ ∃ back, i.flow = .call target back)

def Touches (i : Instruction) (slots : SlotTable) (position : Nat) (d : Int64) : Prop :=
  ∃ op m, i.operands[position]? = some op ∧ op.asLocal? = some m ∧ m.displacement = d ∧
    slots.contains d = true

theorem calls_iff (i : Instruction) (target : UInt64) :
    i.Calls target ↔ (i.isCall && i.callTarget? == some target) = true := by
  have hf : i.flow.callTarget? = some target ↔ ∃ back, i.flow = .call target back := by
    cases i.flow <;> simp [Flow.callTarget?]
  rw [Calls, Bool.and_eq_true, beq_iff_eq, callTarget?, Option.or_eq_some_iff, hf]

end Instruction

namespace Canary

/-- The instruction moves something into the slot at `d` or, if loads count and it moves nothing
into a slot, out of that slot. -/
def Moves (settings : Settings) (slots : SlotTable) (i : Instruction) (d : Int64) : Prop :=
  i.operation = .move ∧
    (i.Touches slots 0 d ∨
      settings.loads = true ∧ (∀ e, ¬ i.Touches slots 0 e) ∧ i.Touches slots 1 d)

/-- The positions of the calls of the guard routine. -/
def guardCalls (settings : Settings) (symbols : Symbols) (s : Stream) : Set Nat :=
  {p | ∃ guard i, symbols.get? settings.guard = some guard ∧ s.get? p = some i ∧ i.Calls guard}

/-- The positions of the moves that touch a slot in the window before a position. -/
def movesBefore (settings : Settings) (slots : SlotTable) (s : Stream) (p : Nat) : Set Nat :=
  {q | p - settings.window ≤ q ∧ q < p ∧ ∃ i d, s.get? q = some i ∧ Moves settings slots i d}

variable (settings : Settings) (symbols : Symbols) (s : Stream) (slots : SlotTable)

def touched? (i : Instruction) (position : Nat) : Option Int64 :=
  ((i.operands[position]?.bind Operand.asLocal?).map Memory.displacement).filter slots.contains

theorem touched?_eq_some_iff (i : Instruction) (position : Nat) (d : Int64) :
    touched? slots i position = some d ↔ i.Touches slots position d := by
  simp only [touched?, Instruction.Touches, Option.filter_eq_some_iff, Option.map_eq_some_iff,
    Option.bind_eq_some_iff]
  grind

theorem touched?_eq_none_iff (i : Instruction) (position : Nat) :
    touched? slots i position = none ↔ ∀ d, ¬ i.Touches slots position d := by
  simp only [Option.eq_none_iff_forall_ne_some, ne_eq, touched?_eq_some_iff]

theorem slotMoved?_eq_some_iff (i : Instruction) (d : Int64) :
    slotMoved? settings slots i = some d ↔ Moves settings slots i d := by
  have hs : slotMoved? settings slots i =
      if i.operation = .move then settings.operandPositions.findSome? (touched? slots i) else none :=
    rfl
  rw [hs, Moves, ← touched?_eq_some_iff, ← touched?_eq_some_iff, ← touched?_eq_none_iff,
    Settings.operandPositions]
  by_cases hm : i.operation = .move
  · rw [if_pos hm, and_iff_right hm]
    cases settings.loads <;> cases h : touched? slots i 0 <;> simp [h]
  · simp [hm]

theorem callPosition?_eq_some_iff (guard : UInt64) (p : Nat) :
    callPosition? s guard = some p ↔
      IsLeast {p | ∃ i, s.get? p = some i ∧ i.Calls guard} p := by
  rw [callPosition?, List.findIdx?_eq_some_iff_getElem]
  simp only [← Instruction.calls_iff]
  constructor
  · rintro ⟨hp, hc, hn⟩
    refine ⟨⟨_, List.getElem?_eq_getElem hp, hc⟩, ?_⟩
    rintro r ⟨i, hi, hr⟩
    by_contra! hlt
    obtain ⟨hl, rfl⟩ := List.getElem?_eq_some_iff.mp hi
    exact hn r hlt hr
  · rintro ⟨⟨i, hi, hc⟩, hl⟩
    obtain ⟨hp, rfl⟩ := List.getElem?_eq_some_iff.mp hi
    refine ⟨hp, hc, fun r hlt hr => ?_⟩
    exact absurd (hl ⟨_, List.getElem?_eq_getElem (hlt.trans hp), hr⟩) (Nat.not_le.mpr hlt)

/-- The last move that touches a slot, searched backwards from a call. -/
def lastMove? (p : Nat) (call : Instruction) : Option Site :=
  ((s.instructions.take p).drop (p - settings.window)).reverse.findSome? fun i =>
    (slotMoved? settings slots i).map fun d => ⟨call.address, i.address, d⟩

theorem lastMove?_eq_some_iff (p : Nat) (call : Instruction) (site : Site) :
    lastMove? settings s slots p call = some site ↔
      ∃ q store d, IsGreatest (movesBefore settings slots s p) q ∧ s.get? q = some store ∧
        Moves settings slots store d ∧ site = ⟨call.address, store.address, d⟩ := by
  rw [lastMove?, findSome?_window_eq_some_iff]
  constructor
  · rintro ⟨q, store, hs, hq, hi, hf, hr⟩
    obtain ⟨d, hd, rfl⟩ := Option.map_eq_some_iff.mp hf
    rw [slotMoved?_eq_some_iff] at hd
    refine ⟨q, store, d, ⟨⟨hs, hq, store, d, hi, hd⟩, ?_⟩, hi, hd, rfl⟩
    rintro r ⟨-, hrp, i, e, hri, hm⟩
    by_contra! hqr
    have hn := Option.map_eq_none_iff.mp (hr r i hqr hrp hri)
    rw [(slotMoved?_eq_some_iff settings slots i e).mpr hm] at hn
    exact absurd hn nofun
  · rintro ⟨q, store, d, ⟨⟨hs, hq, -⟩, hg⟩, hi, hm, rfl⟩
    refine ⟨q, store, hs, hq, hi, ?_, ?_⟩
    · rw [(slotMoved?_eq_some_iff settings slots store d).mpr hm, Option.map_some]
    · intro r i hqr hrp hri
      rw [Option.map_eq_none_iff, Option.eq_none_iff_forall_ne_some]
      intro e he
      rw [slotMoved?_eq_some_iff] at he
      exact absurd (hg ⟨by omega, hrp, i, e, hri, he⟩) (Nat.not_le.mpr hqr)

theorem isLeast_guardCalls_iff (p : Nat) :
    IsLeast (guardCalls settings symbols s) p ↔
      ∃ guard, symbols.get? settings.guard = some guard ∧ callPosition? s guard = some p := by
  cases hg : symbols.get? settings.guard with
  | none => simp [guardCalls, hg, IsLeast]
  | some guard => simp [guardCalls, hg, callPosition?_eq_some_iff]

theorem locate?_of_isLeast {p : Nat} {call : Instruction}
    (hp : IsLeast (guardCalls settings symbols s) p) (hc : s.get? p = some call) :
    locate? settings symbols s slots = lastMove? settings s slots p call := by
  obtain ⟨guard, hg, hp⟩ := (isLeast_guardCalls_iff settings symbols s p).mp hp
  rw [locate?, guardAddress?, hg, Option.bind_some, site?, hp, Option.bind_eq_bind,
    Option.bind_some, hc]
  rfl

theorem exists_isLeast_of_locate? {site : Site}
    (h : locate? settings symbols s slots = some site) :
    ∃ p call, IsLeast (guardCalls settings symbols s) p ∧ s.get? p = some call := by
  obtain ⟨guard, hg, hs⟩ := Option.bind_eq_some_iff.mp h
  obtain ⟨p, hp, hs⟩ := Option.bind_eq_some_iff.mp hs
  obtain ⟨call, hc, -⟩ := Option.bind_eq_some_iff.mp hs
  exact ⟨p, call, (isLeast_guardCalls_iff settings symbols s p).mpr ⟨guard, hg, hp⟩, hc⟩

theorem locate?_eq_some_iff (site : Site) :
    locate? settings symbols s slots = some site ↔
      ∃ p q call store d, IsLeast (guardCalls settings symbols s) p ∧
        IsGreatest (movesBefore settings slots s p) q ∧ s.get? p = some call ∧
        s.get? q = some store ∧ Moves settings slots store d ∧
        site = ⟨call.address, store.address, d⟩ := by
  constructor
  · intro h
    obtain ⟨p, call, hp, hc⟩ := exists_isLeast_of_locate? settings symbols s slots h
    rw [locate?_of_isLeast settings symbols s slots hp hc, lastMove?_eq_some_iff] at h
    obtain ⟨q, store, d, hq, hs, hm, hd⟩ := h
    exact ⟨p, q, call, store, d, hp, hq, hc, hs, hm, hd⟩
  · rintro ⟨p, q, call, store, d, hp, hq, hc, hs, hm, hd⟩
    rw [locate?_of_isLeast settings symbols s slots hp hc, lastMove?_eq_some_iff]
    exact ⟨q, store, d, hq, hs, hm, hd⟩

/-- What stands behind the first call of the guard routine has no influence. -/
theorem locate?_eq_of_take_eq {p : Nat} (other : Stream)
    (hp : IsLeast (guardCalls settings symbols s) p)
    (h : other.instructions.take (p + 1) = s.instructions.take (p + 1)) :
    locate? settings symbols other slots = locate? settings symbols s slots := by
  have hget : ∀ r ≤ p, other.get? r = s.get? r := by
    intro r hr
    rw [Stream.get?, Stream.get?, ← List.getElem?_take_of_lt (Nat.lt_succ_of_le hr), h,
      List.getElem?_take_of_lt (Nat.lt_succ_of_le hr)]
  have ho : IsLeast (guardCalls settings symbols other) p := by
    obtain ⟨⟨guard, i, hg, hi, hc⟩, hl⟩ := hp
    refine ⟨⟨guard, i, hg, (hget p le_rfl).trans hi, hc⟩, ?_⟩
    rintro r ⟨guard, i, hg, hi, hc⟩
    by_contra! hr
    exact absurd (hl ⟨guard, i, hg, (hget r hr.le).symm.trans hi, hc⟩) (Nat.not_le.mpr hr)
  obtain ⟨-, call, -, hc, -⟩ := hp.1
  have htake : other.instructions.take p = s.instructions.take p := by
    have ht := congrArg (List.take p) h
    rwa [List.take_take, List.take_take, Nat.min_eq_left (Nat.le_succ p)] at ht
  rw [locate?_of_isLeast settings symbols s slots hp hc,
    locate?_of_isLeast settings symbols other slots ho ((hget p le_rfl).trans hc), lastMove?,
    lastMove?, htake]

end Canary

namespace SlotTable

def lacking (suffix name : String) : String :=
  if suffix.toList <:+ name.toList then "" else suffix

theorem appendSuffix_of_get? {t : SlotTable} {d : Int64} {slot : Slot} (h : t.get? d = some slot)
    (suffix : String) :
    t.appendSuffix d suffix =
      ⟨t.stem, t.slots.map (Slot.extend d (lacking suffix slot.name))⟩ := by
  have ht : t.takesSuffix d suffix = true ↔ ¬ suffix.toList <:+ slot.name.toList := by
    simp [takesSuffix_iff, nameOf?, h]
  rw [appendSuffix_eq_map, lacking]
  simp only [ht, ite_not]

theorem nameOf?_appendSuffix_of_get? {t : SlotTable} {d : Int64} {slot : Slot}
    (h : t.get? d = some slot) (suffix : String) :
    (t.appendSuffix d suffix).nameOf? d = some (slot.name ++ lacking suffix slot.name) := by
  rw [nameOf?_appendSuffix, nameOf?, h, lacking]
  by_cases hs : suffix.toList <:+ slot.name.toList
  · simp [hs]
  · simp [hs]

end SlotTable

theorem Canary.Moves.contains {settings : Settings} {slots : SlotTable} {i : Instruction}
    {d : Int64} (h : Moves settings slots i d) : slots.contains d = true := by
  obtain ⟨-, ⟨_, _, -, -, -, hc⟩ | ⟨-, -, _, _, -, -, -, hc⟩⟩ := h
  · exact hc
  · exact hc

namespace Findings

open Canary

variable (f : Findings) (settings : Settings) (symbols : Symbols) (s : Stream)

/-- The search marks the slot that the last move before the first call of the guard routine
touches. It changes no other slot, and finds nothing if there is no such call or move. What stands
behind the call has no influence. -/
theorem recoverCanary_marks_last_move :
    (∀ p q call store d, IsLeast (guardCalls settings symbols s) p →
      IsGreatest (movesBefore settings f.slots s p) q →
      s.get? p = some call → s.get? q = some store → Moves settings f.slots store d →
      ∃ slot, f.slots.get? d = some slot ∧
        f.recoverCanary settings symbols s =
          (⟨f.fused, f.slots.stem,
              f.slots.slots.map (Slot.extend d (SlotTable.lacking settings.suffix slot.name))⟩,
            some ⟨⟨call.address, store.address, d⟩,
              slot.name ++ SlotTable.lacking settings.suffix slot.name⟩)) ∧
    ((¬ ∃ p q, IsLeast (guardCalls settings symbols s) p ∧
        IsGreatest (movesBefore settings f.slots s p) q) →
      f.recoverCanary settings symbols s = (f, none)) ∧
    ∀ p other, IsLeast (guardCalls settings symbols s) p →
      other.instructions.take (p + 1) = s.instructions.take (p + 1) →
      f.recoverCanary settings symbols other = f.recoverCanary settings symbols s := by
  refine ⟨?_, ?_, ?_⟩
  · intro p q call store d hp hq hc hs hm
    obtain ⟨slot, hslot⟩ := Option.isSome_iff_exists.mp hm.contains
    refine ⟨slot, hslot, ?_⟩
    have hl := (locate?_eq_some_iff settings symbols s f.slots _).mpr
      ⟨p, q, call, store, d, hp, hq, hc, hs, hm, rfl⟩
    rw [recoverCanary, recover_of_locate?_eq_some settings symbols s f.slots _ hl,
      SlotTable.nameOf?_appendSuffix_of_get? hslot, SlotTable.appendSuffix_of_get? hslot]
    rfl
  · intro hno
    have hl : locate? settings symbols s f.slots = none := by
      rw [Option.eq_none_iff_forall_ne_some]
      intro site hs
      obtain ⟨p, q, _, _, _, hp, hq, -⟩ := (locate?_eq_some_iff settings symbols s _ site).mp hs
      exact hno ⟨p, q, hp, hq⟩
    rw [recoverCanary, recover_of_locate?_eq_none settings symbols s f.slots hl]
  · intro p other hp h
    have hl := locate?_eq_of_take_eq settings symbols s f.slots other hp h
    rw [locate?, locate?] at hl
    rw [recoverCanary, recoverCanary, recover, recover, hl]

def guardedTwice : Stream :=
  let store address d : Instruction := ⟨address, 4, [], .move, "mov",
    [.memory (.offset (.general .x86_64 5 64) d 8), .register (.general .x86_64 0 64)], .sequential⟩
  let call address : Instruction :=
    ⟨address, 5, [], .call, "call", [.immediate (.signed 0x2000 64)], .sequential⟩
  ⟨[store 0x1000 (-8), store 0x1004 (-24), call 0x1008, store 0x100d (-16), call 0x1011], rfl⟩

def twoSlots : Findings := ⟨.empty, "var", [⟨1, -8, "var1", 8⟩, ⟨2, -16, "var2", 8⟩]⟩

theorem recoverCanary_marks_last_move_guardedTwice :
    IsLeast (guardCalls .standard (.ofList [("__stack_chk_fail@plt", 0x2000)]) guardedTwice) 2 ∧
    twoSlots.recoverCanary .standard (.ofList [("__stack_chk_fail@plt", 0x2000)]) guardedTwice =
      (⟨.empty, "var", [⟨1, -8, "var1_canary", 8⟩, ⟨2, -16, "var2", 8⟩]⟩,
        some ⟨⟨0x1008, 0x1000, -8⟩, "var1_canary"⟩) := by
  have hl : locate? .standard (.ofList [("__stack_chk_fail@plt", 0x2000)]) guardedTwice
      twoSlots.slots = some ⟨0x1008, 0x1000, -8⟩ := rfl
  have hg : IsLeast (guardCalls .standard (.ofList [("__stack_chk_fail@plt", 0x2000)])
      guardedTwice) 2 := (isLeast_guardCalls_iff _ _ _ _).mpr ⟨0x2000, rfl, rfl⟩
  obtain ⟨p, q, call, store, d, hp, hq, hc, hs, hm, he⟩ := (locate?_eq_some_iff _ _ _ _ _).mp hl
  injection he with hcall hstore hd
  subst hd
  obtain ⟨slot, hslot, hr⟩ :=
    (recoverCanary_marks_last_move twoSlots _ _ _).1 p q call store _ hp hq hc hs hm
  cases hslot
  rw [hr, ← hcall, ← hstore]
  exact ⟨hg, rfl⟩

end Findings

end Pseudocode
