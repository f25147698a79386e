import Pseudocode.Machine.Operand
import Pseudocode.Proofs.Text.Hex

namespace Pseudocode

/-- A text can be cut where its characters stop to satisfy `p`. -/
theorem append_inj_of_all {p : Char → Bool} {a b x y : List Char} (ha : a.all p = true)
    (hb : b.all p = true) (hx : ∀ c ∈ x.head?, p c = false) (hy : ∀ c ∈ y.head?, p c = false)
    (h : a ++ x = b ++ y) : a = b ∧ x = y := by
  have ht : ∀ {u v : List Char}, u.all p = true → (∀ c ∈ v.head?, p c = false) →
      (u ++ v).takeWhile p = u := by
    intro u v hu hv
    rw [List.takeWhile_append_of_pos (List.all_eq_true.mp hu)]
    cases v with
    | nil => simp
    | cons c v => rw [List.takeWhile_cons_of_neg (by simp [hv c rfl]), List.append_nil]
  have hab : a = b := by rw [← ht ha hx, h, ht hb hy]
  subst hab
  exact ⟨rfl, List.append_cancel_left h⟩

theorem all_bne_of_not_mem {c : Char} {a : List Char} (h : c ∉ a) :
    a.all (· != c) = true := by
  rw [List.all_eq_true]
  intro d hd
  rw [bne_iff_ne]
  rintro rfl
  exact h hd

namespace Register

def allNames : List String :=
  names 64 ++ names 32 ++ names 16 ++ names 8 ++ segmentNames ++ ["unknown"]

theorem name_mem_allNames (r : Register) : r.name ∈ allNames := by
  have hn : ∀ k, names k ⊆ allNames := by
    intro k
    unfold names
    split
    all_goals decide
  have hs : segmentNames ⊆ allNames := by decide
  rw [name]
  split
  · cases h : (names r.size.toNat)[r.id.toNat]? with
    | none => decide
    | some name => exact hn _ (List.mem_of_getElem? h)
  · cases h : segmentNames[r.id.toNat - 32]? with
    | none => decide
    | some name => exact hs (List.mem_of_getElem? h)

theorem all_isAlphanum_of_mem {name : String} (h : name ∈ allNames) :
    name.toList.all Char.isAlphanum = true := by
  have hall : ∀ name ∈ allNames, name.toList.all Char.isAlphanum = true := by decide
  exact hall name h

theorem not_mem_of_mem {name : String} (h : name ∈ allNames) {c : Char}
    (hc : c.isAlphanum = false) : c ∉ name.toList := by
  intro hm
  rw [List.all_eq_true.mp (all_isAlphanum_of_mem h) c hm] at hc
  cases hc

theorem exists_cons_of_mem {name : String} (h : name ∈ allNames) :
    ∃ c cs, name.toList = c :: cs ∧ c.isAlpha = true := by
  have hall : ∀ name ∈ allNames, name.toList.head?.any Char.isAlpha = true := by decide
  obtain ⟨c, hc, ha⟩ := (Option.any_eq_true _ _).mp (hall name h)
  obtain ⟨cs, hcs⟩ := List.head?_eq_some_iff.mp hc
  exact ⟨c, cs, hcs, ha⟩

end Register

namespace Memory

/-- A register in the sum that makes up an address, with its factor. -/
@[ext]
structure Term where
  register : String
  factor : Nat

namespace Term

def text (t : Term) : String :=
  if 1 < t.factor then t.register ++ "*" ++ Nat.repr t.factor else t.register

def factorText (t : Term) : List Char :=
  if 1 < t.factor then '*' :: (Nat.repr t.factor).toList else []

theorem toList_text (t : Term) : t.text.toList = t.register.toList ++ t.factorText := by
  rw [text, factorText]
  split <;> simp

structure Proper (t : Term) : Prop where
  named : t.register ∈ Register.allNames
  pos : 0 < t.factor

theorem head?_factorText (t : Term) : ∀ c ∈ t.factorText.head?, c.isAlphanum = false := by
  rw [factorText]
  split <;> simp

theorem Proper.eq_of_text_eq {t u : Term} (ht : t.Proper) (hu : u.Proper) (h : t.text = u.text) :
    t = u := by
  have hl := congrArg String.toList h
  rw [toList_text, toList_text] at hl
  obtain ⟨hr, hf⟩ := append_inj_of_all (Register.all_isAlphanum_of_mem ht.named)
    (Register.all_isAlphanum_of_mem hu.named) t.head?_factorText u.head?_factorText hl
  have hk : t.factor = u.factor := by
    have hp := ht.pos
    have hp' := hu.pos
    simp only [factorText] at hf
    split at hf <;> split at hf
    · exact eq_of_repr_eq (String.toList_inj.mp (List.cons.inj hf).2)
    · cases hf
    · cases hf
    · omega
  exact Term.ext (String.toList_inj.mp hr) hk

theorem Proper.exists_cons {t : Term} (ht : t.Proper) :
    ∃ c cs, t.text.toList = c :: cs ∧ c.isAlpha = true := by
  obtain ⟨c, cs, hc, ha⟩ := Register.exists_cons_of_mem ht.named
  exact ⟨c, cs ++ t.factorText, by rw [toList_text, hc, List.cons_append], ha⟩

theorem Proper.blank_not_mem {t : Term} (ht : t.Proper) : ' ' ∉ t.text.toList := by
  rw [toList_text, List.mem_append, not_or]
  refine ⟨Register.not_mem_of_mem ht.named (by decide), ?_⟩
  rw [factorText]
  split
  · rw [List.mem_cons, not_or]
    refine ⟨by decide, fun hc => ?_⟩
    rw [Nat.toList_repr] at hc
    exact absurd (Nat.isDigit_of_mem_toDigits (by decide) (by decide) hc) (by decide)
  · exact List.not_mem_nil

end Term

def terms (m : Memory) : List Term :=
  m.base.toList.map (fun r => ⟨r.name, 1⟩) ++
    m.index.toList.map fun r => ⟨r.name, m.scale.toNat⟩

theorem registerTexts_eq (m : Memory) : m.registerTexts = m.terms.map Term.text := by
  have hi : m.indexText = fun r => Term.text ⟨r.name, m.scale.toNat⟩ := by
    funext r
    rfl
  rw [registerTexts, terms, hi]
  cases m.base <;> cases m.index <;> rfl

theorem scale_pos {scale : UInt8} (h : scale ∈ [1, 2, 4, 8]) : 0 < scale := by
  simp only [List.mem_cons, List.not_mem_nil, or_false] at h
  obtain rfl | rfl | rfl | rfl := h
  all_goals decide

theorem proper_of_mem_terms {m : Memory} (hm : 0 < m.scale) : ∀ t ∈ m.terms, t.Proper := by
  intro t ht
  obtain ht | ht := List.mem_append.mp ht
  · obtain ⟨r, -, rfl⟩ := List.mem_map.mp ht
    exact ⟨r.name_mem_allNames, Nat.one_pos⟩
  · obtain ⟨r, -, rfl⟩ := List.mem_map.mp ht
    exact ⟨r.name_mem_allNames, UInt8.lt_iff_toNat_lt.mp hm⟩

def offsetText (d : Int64) : List Char :=
  if d = 0 then []
  else ' ' :: (if d < 0 then '-' else '+') :: ' ' :: (Hex.literal d.toInt.natAbs).toList

/-- What stands behind the first register: the other ones, and the offset. -/
def restText (ts : List Term) (d : Int64) : List Char :=
  ts.flatMap (fun t => ' ' :: '+' :: ' ' :: t.text.toList) ++ offsetText d

theorem toList_intercalate (t : Term) (ts : List Term) :
    (" + ".intercalate ((t :: ts).map Term.text)).toList =
      t.text.toList ++ ts.flatMap fun u => ' ' :: '+' :: ' ' :: u.text.toList := by
  induction ts generalizing t with
  | nil => simp
  | cons u ts ih =>
    rw [List.map_cons, List.map_cons, String.intercalate_cons_cons, ← List.map_cons,
      String.toList_append, ih u]
    simp

theorem addressText_of_nil {m : Memory} (h : m.terms = []) :
    m.addressText = Hex.literal m.displacement.toUInt64.toNat := by
  rw [addressText, registerTexts_eq, h]
  rfl

theorem toList_addressText_of_cons {m : Memory} {t : Term} {ts : List Term}
    (h : m.terms = t :: ts) :
    m.addressText.toList = t.text.toList ++ restText ts m.displacement := by
  have hs : m.addressText = " + ".intercalate ((t :: ts).map Term.text) ++
      String.ofList (offsetText m.displacement) := by
    rw [addressText, registerTexts_eq, h, List.map_cons, offsetText]
    by_cases hd : m.displacement = 0
    · simp [hd]
    · by_cases hn : m.displacement < 0 <;> simp [hd, hn, ← String.toList_inj]
  rw [hs, String.toList_append, toList_intercalate, String.toList_ofList, restText,
    List.append_assoc]

theorem offsetText_injective {d e : Int64} (h : offsetText d = offsetText e) : d = e := by
  have hz : (0 : Int64).toInt = 0 := rfl
  rw [offsetText, offsetText] at h
  by_cases hd : d = 0
  · by_cases he : e = 0
    · rw [hd, he]
    · simp [hd, he] at h
  · by_cases he : e = 0
    · simp [hd, he] at h
    · simp only [hd, he, if_false, List.cons.injEq, true_and] at h
      obtain ⟨hs, hl⟩ := h
      have ha := Hex.literal_injective (String.toList_inj.mp hl)
      apply Int64.toInt_inj.mp
      -- The magnitudes agree by their digits, and the signs as well.
      have hn : d.toInt < 0 ↔ e.toInt < 0 := by
        rw [← hz, ← Int64.lt_iff_toInt_lt, ← Int64.lt_iff_toInt_lt]
        by_cases hd' : d < 0
        · by_cases he' : e < 0
          · exact iff_of_true hd' he'
          · simp [hd', he'] at hs
        · by_cases he' : e < 0
          · simp [hd', he'] at hs
          · exact iff_of_false hd' he'
      omega

theorem head?_restText (ts : List Term) (d : Int64) :
    ∀ c ∈ (restText ts d).head?, (c != ' ') = false := by
  cases ts with
  | nil =>
    rw [restText, offsetText]
    split <;> simp
  | cons t ts => simp [restText]

theorem restText_nil_ne (d e : Int64) {t : Term} (ht : t.Proper) (ts : List Term) :
    restText [] d ≠ restText (t :: ts) e := by
  obtain ⟨c, cs, hc, ha⟩ := ht.exists_cons
  have h0 : '0' ≠ c := by
    rintro rfl
    revert ha
    decide
  rw [restText, restText, offsetText, List.flatMap_nil, List.nil_append, List.flatMap_cons, hc]
  split
  · simp
  · simp [Hex.toList_literal, h0]

theorem restText_injective {ts us : List Term} {d e : Int64} (ht : ∀ t ∈ ts, t.Proper)
    (hu : ∀ u ∈ us, u.Proper) (h : restText ts d = restText us e) : ts = us ∧ d = e := by
  induction ts generalizing us with
  | nil =>
    cases us with
    | nil => exact ⟨rfl, offsetText_injective h⟩
    | cons u us => exact absurd h (restText_nil_ne d e (hu u List.mem_cons_self) us)
  | cons t ts ih =>
    cases us with
    | nil => exact absurd h.symm (restText_nil_ne e d (ht t List.mem_cons_self) ts)
    | cons u us =>
      have ht' := ht t List.mem_cons_self
      have hu' := hu u List.mem_cons_self
      have hc : t.text.toList ++ restText ts d = u.text.toList ++ restText us e := by
        simpa [restText] using h
      obtain ⟨htext, hrest⟩ := append_inj_of_all (all_bne_of_not_mem ht'.blank_not_mem)
        (all_bne_of_not_mem hu'.blank_not_mem) (head?_restText ts d) (head?_restText us e) hc
      obtain ⟨rfl, rfl⟩ := ih (fun t h => ht t (List.mem_cons_of_mem _ h))
        (fun u h => hu u (List.mem_cons_of_mem _ h)) hrest
      rw [ht'.eq_of_text_eq hu' (String.toList_inj.mp htext)]
      exact ⟨rfl, rfl⟩

theorem addressText_nil_ne_cons {m n : Memory} {t : Term} {ts : List Term} (hm : m.terms = [])
    (hn : n.terms = t :: ts) (ht : t.Proper) : m.addressText ≠ n.addressText := by
  intro h
  obtain ⟨c, cs, hc, ha⟩ := ht.exists_cons
  have hl := congrArg String.toList h
  rw [addressText_of_nil hm, Hex.toList_literal, toList_addressText_of_cons hn, hc] at hl
  rw [← (List.cons.inj hl).1] at ha
  revert ha
  decide

theorem eq_of_addressText_eq {m n : Memory} (hm : 0 < m.scale) (hn : 0 < n.scale)
    (h : m.addressText = n.addressText) :
    m.terms = n.terms ∧ m.displacement = n.displacement := by
  have hpm := proper_of_mem_terms hm
  have hpn := proper_of_mem_terms hn
  cases htm : m.terms with
  | nil =>
    cases htn : n.terms with
    | nil =>
      rw [addressText_of_nil htm, addressText_of_nil htn] at h
      have hd := UInt64.toNat_inj.mp (Hex.literal_injective h)
      exact ⟨rfl, Int64.toBitVec_inj.mp (congrArg UInt64.toBitVec hd)⟩
    | cons u us =>
      exact absurd h (addressText_nil_ne_cons htm htn (hpn u (htn ▸ List.mem_cons_self)))
  | cons t ts =>
    cases htn : n.terms with
    | nil =>
      exact absurd h.symm (addressText_nil_ne_cons htn htm (hpm t (htm ▸ List.mem_cons_self)))
    | cons u us =>
      rw [htm] at hpm
      rw [htn] at hpn
      have hl := congrArg String.toList h
      rw [toList_addressText_of_cons htm, toList_addressText_of_cons htn] at hl
      apply restText_injective hpm hpn
      simpa [restText] using hl

def segmentText (m : Memory) : List Char :=
  m.segment.elim [] fun r => r.name.toList ++ [':']

theorem toList_text (m : Memory) :
    m.text.toList = m.segmentText ++ '[' :: (m.addressText.toList ++ [']']) := by
  rw [text, segmentText]
  cases m.segment <;> simp

theorem bracket_not_mem_segmentText (m : Memory) : '[' ∉ m.segmentText := by
  rw [segmentText]
  cases m.segment with
  | none => exact List.not_mem_nil
  | some r =>
    rw [Option.elim_some, List.mem_append, not_or]
    exact ⟨Register.not_mem_of_mem r.name_mem_allNames (by decide), by decide⟩

theorem segmentText_injective {m n : Memory} (h : m.segmentText = n.segmentText) :
    m.segment.map Register.name = n.segment.map Register.name := by
  rw [segmentText, segmentText] at h
  cases hm : m.segment with
  | none =>
    cases hn : n.segment with
    | none => rfl
    | some r => simp [hm, hn] at h
  | some q =>
    cases hn : n.segment with
    | none => simp [hm, hn] at h
    | some r =>
      simp only [hm, hn, Option.elim_some] at h
      exact congrArg some (String.toList_inj.mp (List.append_cancel_right h))

/-- A text can be taken apart into segment, registers and offset. -/
theorem eq_of_text_eq {m n : Memory} (hm : 0 < m.scale) (hn : 0 < n.scale)
    (h : m.text = n.text) :
    m.segment.map Register.name = n.segment.map Register.name ∧ m.terms = n.terms ∧
      m.displacement = n.displacement := by
  have hl := congrArg String.toList h
  rw [toList_text, toList_text] at hl
  obtain ⟨hs, ha⟩ := append_inj_of_all (all_bne_of_not_mem m.bracket_not_mem_segmentText)
    (all_bne_of_not_mem n.bracket_not_mem_segmentText) (by simp) (by simp) hl
  have ha := List.append_cancel_right (List.cons.inj ha).2
  exact ⟨segmentText_injective hs, eq_of_addressText_eq hm hn (String.toList_inj.mp ha)⟩

/-- The address for given values of the registers, modulo the size of the address space. -/
def address (value : Register → BitVec 64) (m : Memory) : BitVec 64 :=
  m.base.elim 0 value + m.index.elim 0 value * BitVec.ofNat 64 m.scale.toNat +
    m.displacement.toBitVec

theorem address_eq_foldr (values : String → BitVec 64) (m : Memory) :
    m.address (values ·.name) =
      m.terms.foldr (fun t rest => values t.register * BitVec.ofNat 64 t.factor + rest)
        m.displacement.toBitVec := by
  rw [address, terms]
  cases m.base <;> cases m.index <;> simp [BitVec.add_assoc]

theorem address_congr {m n : Memory} (ht : m.terms = n.terms)
    (hd : m.displacement = n.displacement) (values : String → BitVec 64) :
    m.address (values ·.name) = n.address (values ·.name) := by
  rw [address_eq_foldr, address_eq_foldr, ht, hd]

end Memory

namespace Immediate

/-- The number that the bits stand for. -/
def number (imm : Immediate) : Int :=
  if imm.isSigned then imm.value.toInt else imm.value.toNat

theorem text_eq_signed (imm : Immediate) : imm.text = Hex.signed imm.number := by
  rw [text, number]
  split
  · rfl
  · rw [Hex.signed, if_neg (by omega), Int.natAbs_natCast]

theorem value_eq_ofInt (imm : Immediate) : imm.value = BitVec.ofInt 128 imm.number := by
  rw [number]
  split <;> simp

end Immediate

namespace Operand

/-- Memory references with the same text are in the same segment and at the same address, whatever
the registers hold, and immediates with the same text have the same value. -/
theorem meaning_of_text :
    (∀ m n : Memory, m.scale ∈ [1, 2, 4, 8] → n.scale ∈ [1, 2, 4, 8] → m.text = n.text →
      m.segment.map Register.name = n.segment.map Register.name ∧
        ∀ values : String → BitVec 64, m.address (values ·.name) = n.address (values ·.name)) ∧
      ∀ a b : Immediate, a.text = b.text → a.value = b.value := by
  constructor
  · intro m n hm hn h
    obtain ⟨hs, ht, hd⟩ := Memory.eq_of_text_eq (Memory.scale_pos hm) (Memory.scale_pos hn) h
    exact ⟨hs, Memory.address_congr ht hd⟩
  · intro a b h
    rw [Immediate.text_eq_signed, Immediate.text_eq_signed] at h
    rw [a.value_eq_ofInt, b.value_eq_ofInt, Hex.signed_injective h]

theorem meaning_of_text_bareRegister :
    let rax := Register.general .x86_64 0 64
    let fs := Register.segment .x86_64 35
    let m := (Memory.indexed (some rax) none 8 Int64.minValue 4).inSegment fs
    let n := (Memory.indexed none (some rax) 1 Int64.minValue 8).inSegment fs
    m.text = "fs:[rax - 0x8000000000000000]" ∧ n.text = m.text ∧
      (∀ values : String → BitVec 64, m.address (values ·.name) = n.address (values ·.name)) ∧
      (Immediate.signed 255#128 8).text = (Immediate.unsigned 255 64).text ∧
      (Immediate.signed 255#128 8).value = (Immediate.unsigned 255 64).value := by
  refine ⟨by decide +kernel, by decide +kernel, ?_, by decide +kernel, ?_⟩
  · exact (meaning_of_text.1 _ _ (by decide) (by decide) (by decide +kernel)).2
  · exact meaning_of_text.2 _ _ (by decide +kernel)

end Operand

end Pseudocode
