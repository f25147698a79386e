import Mathlib.Data.List.Lex
import Mathlib.Order.Bounds.Basic
import Pseudocode.Proofs.Tree.Reference

namespace Pseudocode

/-- One turn on the way down to a reference. The items of a branch are numbered. -/
inductive Turn
  | jump
  | comparison
  | body
  | otherwise
  | epilog
  | item (index : Nat)
  deriving DecidableEq, Repr

namespace Turn

def rank : Turn → Nat
  | .jump => 0
  | .comparison => 1
  | .body => 2
  | .otherwise => 3
  | .epilog => 4
  | .item index => index + 5

theorem rank_injective : Function.Injective rank := by
  intro a b h
  cases a <;> cases b <;> simp_all [rank]

instance : LinearOrder Turn :=
  LinearOrder.lift' rank rank_injective

theorem lt_iff (a b : Turn) : a < b ↔ a.rank < b.rank :=
  Iff.rfl

end Turn

/-- The turns from the top of a tree to a reference, which are compared from the first one on. -/
abbrev Route := List Turn

def Test.reference? (test : Test) : Route → Option Reference
  | [.jump] => some (.jump test.jump)
  | [.comparison] => test.comparison.map .comparison
  | _ => none

mutual

def Item.reference? : Item → Route → Option Reference
  | .block b, [] => some (.block b)
  | .block _, _ :: _ => none
  | .node n, route => n.reference? route

def Node.reference? : Node → Route → Option Reference
  | .seq items, route => Tree.reference? items route
  | .ifGoto test _, route => test.reference? route
  | .andIf test, route => test.reference? route
  | .ifElse _ body _, .body :: route => Tree.reference? body route
  | .ifElse _ _ otherwise, .otherwise :: route => Tree.reference? otherwise route
  | .ifElse test _ _, route => test.reference? route
  | .loop body _ _, .body :: route => Tree.reference? body route
  | .loop _ _ epilog, .epilog :: route => epilogReference? epilog route
  | .loop .., _ => none
  | .jump _, _ | .comment _, _ => none

def Tree.reference? : List Item → Route → Option Reference
  | item :: _, .item 0 :: route => item.reference? route
  | _ :: items, .item (index + 1) :: route => Tree.reference? items (.item index :: route)
  | _, _ => none

def epilogReference? : Option Node → Route → Option Reference
  | none, _ => none
  | some n, route => n.reference? route

end

namespace Reference

/-- The reference lies inside a stream of `length` instructions. A block must not be empty. -/
def Within (length : Nat) : Reference → Prop
  | .block b => b.start < b.stop ∧ b.stop ≤ length
  | .jump handle | .comparison handle => handle < length

def defect (length : Nat) : Reference → Error
  | .block b =>
    if b.stop ≤ b.start then .emptyBlock b.start else .outOfRange b.start b.stop length
  | .jump handle | .comparison handle => .outOfRange handle (handle + 1) length

theorem fault?_eq_none_iff (length : Nat) (r : Reference) :
    r.fault? length = none ↔ r.Within length := by
  cases r with
  | block b => exact fault?_block_eq_none
  | jump handle | comparison handle =>
    simp only [fault?, rangeFault?, Within, ite_eq_right_iff, reduceCtorEq, imp_false, Nat.not_lt,
      Nat.succ_le_iff]

theorem fault?_of_not_within {length : Nat} {r : Reference} (h : ¬ r.Within length) :
    r.fault? length = some (r.defect length) := by
  cases r with
  | block b =>
    rw [fault?, defect, rangeFault?]
    by_cases hs : b.stop ≤ b.start
    · rw [if_pos (Block.isEmpty_eq_true.mpr hs), if_pos hs]
    · have hlt := Nat.lt_of_not_le hs
      have hl : length < b.stop := Nat.lt_of_not_le fun hl => h ⟨hlt, hl⟩
      rw [Block.isEmpty_eq_false.mpr hlt, if_neg Bool.false_ne_true, if_pos hl, if_neg hs]
  | jump handle | comparison handle =>
    exact if_pos (Nat.lt_succ_of_le (Nat.le_of_not_lt h))

end Reference

def Route.here (reference : Option Reference) : Route → Option Reference
  | [] => reference
  | _ :: _ => none

def Turn.look (turn : Turn) (below : Route → Option Reference) : Route → Option Reference
  | [] => none
  | first :: route => if first = turn then below route else none

/-- What `left` knows is read before all that `right` knows. -/
def Precedes (left right : Route → Option Reference) : Prop :=
  ∀ p q x y, left p = some x → right q = some y → p < q

/-- The fault is that of the first faulty reference among those that `look` knows. -/
def FirstFault (length : Nat) (look : Route → Option Reference) : Option Error → Prop
  | none => ∀ route r, look route = some r → r.fault? length = none
  | some e => ∃ route r, look route = some r ∧ r.fault? length = some e ∧
      ∀ earlier q, earlier < route → look earlier = some q → q.fault? length = none

theorem Turn.look_eq_some {turn : Turn} {below : Route → Option Reference} {route : Route}
    {r : Reference} (h : turn.look below route = some r) :
    ∃ rest, route = turn :: rest ∧ below rest = some r := by
  cases route with
  | nil => cases h
  | cons first rest =>
    rw [look] at h
    split at h
    next hf => exact ⟨rest, by rw [hf], h⟩
    next => cases h

theorem Turn.look_cons (turn : Turn) (below : Route → Option Reference) (route : Route) :
    turn.look below (turn :: route) = below route :=
  if_pos rfl

namespace Precedes

variable {left middle right : Route → Option Reference}

theorem look {first second : Turn} (h : first < second) :
    Precedes (first.look left) (second.look right) := by
  intro p q x y hx hy
  obtain ⟨rest, rfl, -⟩ := Turn.look_eq_some hx
  obtain ⟨behind, rfl, -⟩ := Turn.look_eq_some hy
  exact List.cons_lt_cons_iff.mpr (.inl h)

theorem or_left (hl : Precedes left right) (hm : Precedes middle right) :
    Precedes (fun route => (left route).or (middle route)) right := by
  intro p q x y hx hy
  obtain hx | ⟨-, hx⟩ := Option.or_eq_some_iff.mp hx
  · exact hl p q x y hx hy
  · exact hm p q x y hx hy

theorem or_right (hm : Precedes left middle) (hr : Precedes left right) :
    Precedes left fun route => (middle route).or (right route) := by
  intro p q x y hx hy
  obtain hy | ⟨-, hy⟩ := Option.or_eq_some_iff.mp hy
  · exact hm p q x y hx hy
  · exact hr p q x y hx hy

end Precedes

namespace FirstFault

variable {length : Nat} {below left right : Route → Option Reference}

theorem here (length : Nat) (o : Option Reference) :
    FirstFault length (Route.here o) (o.toList.findSome? (Reference.fault? length)) := by
  cases o with
  | none => exact fun | [], _, hr | _ :: _, _, hr => by cases hr
  | some q =>
    rw [Option.toList_some, List.findSome?_singleton]
    cases hq : q.fault? length with
    | none =>
      intro route r hr
      cases route with
      | nil =>
        cases hr
        exact hq
      | cons => cases hr
    | some e => exact ⟨[], q, rfl, hq, fun earlier _ hlt => absurd hlt (List.not_lt_nil earlier)⟩

theorem look {o : Option Error} (h : FirstFault length below o) (turn : Turn) :
    FirstFault length (turn.look below) o := by
  cases o with
  | none =>
    intro route r hr
    obtain ⟨rest, rfl, hrest⟩ := Turn.look_eq_some hr
    exact h rest r hrest
  | some e =>
    obtain ⟨route, r, hr, he, hb⟩ := h
    refine ⟨turn :: route, r, (Turn.look_cons turn below route).trans hr, he, ?_⟩
    intro earlier q hlt hq
    obtain ⟨rest, rfl, hrest⟩ := Turn.look_eq_some hq
    exact hb rest q (List.cons_lt_cons_self.mp hlt) hrest

theorem or {o₁ o₂ : Option Error} (h₁ : FirstFault length left o₁)
    (h₂ : FirstFault length right o₂) (hp : Precedes left right) :
    FirstFault length (fun route => (left route).or (right route)) (o₁.or o₂) := by
  cases o₁ with
  | none =>
    cases o₂ with
    | none =>
      intro route r hr
      obtain hr | ⟨-, hr⟩ := Option.or_eq_some_iff.mp hr
      · exact h₁ route r hr
      · exact h₂ route r hr
    | some e =>
      obtain ⟨route, r, hr, he, hf⟩ := h₂
      -- A route that both know would come before itself.
      have hl : left route = none := by
        rw [Option.eq_none_iff_forall_ne_some]
        intro q hq
        exact absurd (hp route route q r hq hr) (lt_irrefl route)
      refine ⟨route, r, Option.or_eq_some_iff.mpr (.inr ⟨hl, hr⟩), he, fun earlier q hlt hq => ?_⟩
      obtain hq | ⟨-, hq⟩ := Option.or_eq_some_iff.mp hq
      · exact h₁ earlier q hq
      · exact hf earlier q hlt hq
  | some e =>
    obtain ⟨route, r, hr, he, hf⟩ := h₁
    refine ⟨route, r, Option.or_eq_some_iff.mpr (.inl hr), he, fun earlier q hlt hq => ?_⟩
    obtain hq | ⟨-, hq⟩ := Option.or_eq_some_iff.mp hq
    · exact hf earlier q hlt hq
    · exact absurd (hp route earlier r q hr hq) (lt_asymm hlt)

end FirstFault

theorem Test.reference?_eq (test : Test) :
    test.reference? = fun route =>
      (Turn.look .jump (Route.here (some (.jump test.jump))) route).or
        (Turn.look .comparison (Route.here (test.comparison.map .comparison)) route) := by
  funext route
  match route with
  | [] => rfl
  | [first] => cases first <;> rfl
  | first :: second :: rest => cases first <;> rfl

theorem Node.reference?_ifElse (test : Test) (body otherwise : List Item) :
    (Node.ifElse test body otherwise).reference? = fun route =>
      (test.reference? route).or ((Turn.look .body (Tree.reference? body) route).or
        (Turn.look .otherwise (Tree.reference? otherwise) route)) := by
  funext route
  match route with
  | [] => rfl
  | [first] => cases first <;> simp [Node.reference?, Test.reference?, Turn.look]
  | first :: second :: rest =>
    cases first <;> simp [Node.reference?, Test.reference?, Turn.look]

theorem Node.reference?_loop (body : List Item) (infinite : Bool) (epilog : Option Node) :
    (Node.loop body infinite epilog).reference? = fun route =>
      (Turn.look .body (Tree.reference? body) route).or
        (Turn.look .epilog (epilogReference? epilog) route) := by
  funext route
  match route with
  | [] => rfl
  | first :: rest => cases first <;> simp [Node.reference?, Turn.look]

def Tree.behind (items : List Item) : Route → Option Reference
  | .item (index + 1) :: route => Tree.reference? items (.item index :: route)
  | _ => none

theorem Tree.reference?_cons (item : Item) (items : List Item) :
    Tree.reference? (item :: items) = fun route =>
      (Turn.look (.item 0) item.reference? route).or (Tree.behind items route) := by
  funext route
  match route with
  | [] => rfl
  | .item 0 :: rest => simp [Tree.reference?, Turn.look, Tree.behind]
  | .item (index + 1) :: rest => simp [Tree.reference?, Turn.look, Tree.behind]
  | .jump :: rest | .comparison :: rest | .body :: rest | .otherwise :: rest | .epilog :: rest =>
    simp [Tree.reference?, Turn.look, Tree.behind]

theorem Tree.exists_item_of_reference? {items : List Item} {route : Route} {r : Reference}
    (h : Tree.reference? items route = some r) : ∃ index rest, route = .item index :: rest := by
  match items, route, h with
  | _ :: _, .item index :: rest, _ => exact ⟨index, rest, rfl⟩

theorem Tree.exists_item_of_behind {items : List Item} {route : Route} {r : Reference}
    (h : Tree.behind items route = some r) :
    ∃ index rest, route = .item (index + 1) :: rest ∧
      Tree.reference? items (.item index :: rest) = some r := by
  match route, h with
  | .item (index + 1) :: rest, h => exact ⟨index, rest, rfl, h⟩

theorem Turn.item_lt_item (j k : Nat) : item j < item k ↔ j < k := by
  rw [lt_iff, rank, rank, Nat.add_lt_add_iff_right]

theorem Tree.precedes_behind (item : Item) (items : List Item) :
    Precedes (Turn.look (.item 0) item.reference?) (Tree.behind items) := by
  intro p q x y hx hy
  obtain ⟨rest, rfl, -⟩ := Turn.look_eq_some hx
  obtain ⟨index, below, rfl, -⟩ := Tree.exists_item_of_behind hy
  exact List.cons_lt_cons_iff.mpr (.inl ((Turn.item_lt_item _ _).mpr (Nat.succ_pos index)))

theorem FirstFault.behind {length : Nat} {items : List Item} {o : Option Error}
    (h : FirstFault length (Tree.reference? items) o) : FirstFault length (Tree.behind items) o := by
  cases o with
  | none =>
    intro route r hr
    obtain ⟨index, rest, rfl, hrest⟩ := Tree.exists_item_of_behind hr
    exact h _ r hrest
  | some e =>
    obtain ⟨route, r, hr, he, hf⟩ := h
    obtain ⟨index, rest, rfl⟩ := Tree.exists_item_of_reference? hr
    refine ⟨.item (index + 1) :: rest, r, hr, he, fun earlier q hlt hq => ?_⟩
    obtain ⟨j, behind, rfl, hbehind⟩ := Tree.exists_item_of_behind hq
    refine hf (.item j :: behind) q ?_ hbehind
    rw [List.cons_lt_cons_iff, Turn.item_lt_item] at hlt ⊢
    simpa using hlt

theorem Test.firstFault (length : Nat) (test : Test) :
    FirstFault length test.reference? (test.references.findSome? (Reference.fault? length)) := by
  have hj := (FirstFault.here length (some (.jump test.jump))).look .jump
  have hc := (FirstFault.here length (test.comparison.map .comparison)).look .comparison
  have hf := hj.or hc (Precedes.look (by decide))
  rw [Option.toList_map, ← List.findSome?_append] at hf
  rw [Test.reference?_eq]
  exact hf

mutual

theorem Node.firstFault (length : Nat) : ∀ n : Node,
    FirstFault length n.reference? (n.references.findSome? (Reference.fault? length))
  | .seq items => Tree.firstFault length items
  | .ifGoto test _ => Test.firstFault length test
  | .andIf test => Test.firstFault length test
  | .ifElse test body otherwise => by
    have ht := Test.firstFault length test
    have hb := (Tree.firstFault length body).look .body
    have ho := (Tree.firstFault length otherwise).look .otherwise
    have hp : Precedes test.reference? fun route =>
        (Turn.look .body (Tree.reference? body) route).or
          (Turn.look .otherwise (Tree.reference? otherwise) route) := by
      rw [Test.reference?_eq]
      apply Precedes.or_left
      · exact (Precedes.look (by decide)).or_right (Precedes.look (by decide))
      · exact (Precedes.look (by decide)).or_right (Precedes.look (by decide))
    rw [Node.reference?_ifElse, Node.references, List.append_assoc, List.findSome?_append,
      List.findSome?_append]
    exact ht.or (hb.or ho (Precedes.look (by decide))) hp
  | .loop body infinite epilog => by
    have hb := (Tree.firstFault length body).look .body
    have he := (firstFault_epilog length epilog).look .epilog
    rw [Node.reference?_loop, Node.references, List.findSome?_append]
    exact hb.or he (Precedes.look (by decide))
  | .jump _ | .comment _ => fun _ _ hr => by cases hr

theorem Tree.firstFault (length : Nat) : ∀ items : List Item,
    FirstFault length (Tree.reference? items)
      ((Tree.references items).findSome? (Reference.fault? length))
  | [] => fun _ _ hr => by cases hr
  | .block b :: items => by
    have hb := (FirstFault.here length (some (.block b))).look (.item 0)
    have hr := (Tree.firstFault length items).behind
    have hi : Route.here (some (.block b)) = (Item.block b).reference? := by
      funext route
      cases route <;> rfl
    rw [hi] at hb
    rw [Tree.reference?_cons, Tree.references, List.findSome?_append]
    exact hb.or hr (Tree.precedes_behind (.block b) items)
  | .node n :: items => by
    have hn := (Node.firstFault length n).look (.item 0)
    have hr := (Tree.firstFault length items).behind
    rw [Tree.reference?_cons, Tree.references, List.findSome?_append]
    exact hn.or hr (Tree.precedes_behind (.node n) items)

theorem firstFault_epilog (length : Nat) : ∀ epilog : Option Node,
    FirstFault length (epilogReference? epilog)
      ((epilogReferences epilog).findSome? (Reference.fault? length))
  | none => fun _ _ hr => by cases hr
  | some n => Node.firstFault length n

end

namespace Tree

/-- The routes to references that do not lie inside a stream of `length` instructions. -/
def defects (t : Tree) (length : Nat) : Set Route :=
  {route | ∃ r, Tree.reference? t route = some r ∧ ¬ r.Within length}

theorem fault?_eq_none_iff (t : Tree) (length : Nat) :
    fault? t length = none ↔ ∀ route r, Tree.reference? t route = some r → r.Within length := by
  have hf := Tree.firstFault length t
  rw [fault?]
  simp only [← Reference.fault?_eq_none_iff]
  cases h : (Tree.references t).findSome? (Reference.fault? length) with
  | none =>
    rw [h] at hf
    exact iff_of_true rfl hf
  | some e =>
    rw [h] at hf
    obtain ⟨route, r, hr, he, -⟩ := hf
    refine iff_of_false nofun fun hall => ?_
    rw [hall route r hr] at he
    cases he

theorem isLeast_defects_of_fault? {t : Tree} {length : Nat} {e : Error}
    (h : fault? t length = some e) :
    ∃ route r, IsLeast (defects t length) route ∧ Tree.reference? t route = some r ∧
      e = r.defect length := by
  have hf := Tree.firstFault length t
  rw [fault?] at h
  rw [h] at hf
  obtain ⟨route, r, hr, he, hb⟩ := hf
  have hn : ¬ r.Within length := by
    rw [← Reference.fault?_eq_none_iff, he]
    nofun
  refine ⟨route, r, ⟨⟨r, hr, hn⟩, ?_⟩, hr, ?_⟩
  · rintro other ⟨q, hq, hw⟩
    by_contra hlt
    exact hw ((Reference.fault?_eq_none_iff length q).mp (hb other q (not_le.mp hlt) hq))
  · rw [Reference.fault?_of_not_within hn] at he
    exact (Option.some.inj he).symm

theorem fault?_eq_some_iff (t : Tree) (length : Nat) (e : Error) :
    fault? t length = some e ↔
      ∃ route r, IsLeast (defects t length) route ∧ Tree.reference? t route = some r ∧
        e = r.defect length := by
  refine ⟨isLeast_defects_of_fault?, ?_⟩
  rintro ⟨route, r, hl, hr, rfl⟩
  cases hf : fault? t length with
  | none =>
    obtain ⟨q, hq, hw⟩ := hl.1
    exact absurd ((fault?_eq_none_iff t length).mp hf route q hq) hw
  | some e =>
    obtain ⟨route', q, hl', hq, rfl⟩ := isLeast_defects_of_fault? hf
    obtain rfl := hl.unique hl'
    rw [hr] at hq
    cases hq
    rfl

/-- A tree is valid if all of its blocks, jumps and comparisons, at any depth, lie inside the stream
and no block is empty. Otherwise it is refused for the first of them, in reading order, that does
not. -/
theorem validate_reports_first_defect (t : Tree) (s : Stream) :
    (t.validate s = .ok () ↔
      ∀ route r, Tree.reference? t route = some r → r.Within s.length) ∧
    ∀ e, t.validate s = .error e ↔
      ∃ route r, IsLeast (defects t s.length) route ∧ Tree.reference? t route = some r ∧
        e = r.defect s.length := by
  rw [← fault?_eq_none_iff]
  simp only [← fault?_eq_some_iff]
  rw [validate, check]
  cases fault? t s.length with
  | none => simp
  | some e => simp

example : check [.node (.ifElse ⟨0, .equal, some 7⟩ [.block ⟨9, 8⟩] [])] 4 =
    .error (.outOfRange 7 8 4) := rfl

end Tree

end Pseudocode
