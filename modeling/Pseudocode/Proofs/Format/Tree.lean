import Pseudocode.Format.Tree
import Pseudocode.Tree.Reference

namespace Pseudocode

/-- The numbers in a reference have 64 bits. -/
def Reference.Fits : Reference → Prop
  | .block b => b.start < UInt64.size ∧ b.stop < UInt64.size
  | .jump handle => handle < UInt64.size
  | .comparison handle => handle < UInt64.size

instance : DecidablePred Reference.Fits
  | .block b => inferInstanceAs (Decidable (b.start < UInt64.size ∧ b.stop < UInt64.size))
  | .jump handle => inferInstanceAs (Decidable (handle < UInt64.size))
  | .comparison handle => inferInstanceAs (Decidable (handle < UInt64.size))

namespace Json

theorem nat?_ofNat_eq_some_iff (n : Nat) : (ofNat n).nat? = some n ↔ n < UInt64.size := by
  rw [nat?, ofNat, natBelow?, Option.ite_none_right_eq_some, and_iff_left rfl]

theorem nullable?_ofOption_eq_some_iff (n? : Option Nat) :
    nullable? nat? (.ofOption .ofNat n?) = some n? ↔ ∀ n ∈ n?, n < UInt64.size := by
  cases n? with
  | none => simp [ofOption, nullable?]
  | some n =>
    have hn : nullable? nat? (.ofNat n) = (ofNat n).nat?.map some := rfl
    rw [ofOption, hn, Option.map_eq_some_iff]
    simp [nat?_ofNat_eq_some_iff]

theorem uint64?_ofNat (a : UInt64) : (ofNat a.toNat).uint64? = some a := by
  rw [uint64?, ofNat, natBelow?, if_pos a.toNat_lt]
  simp

end Json

namespace Json.Fields

/-- The members that a node may lack, with the values that stand for them. -/
def defaults : Fields :=
  [("comparison", .null), ("then_branch", .array []), ("else_branch", .array []),
    ("is_infinite", .bool false), ("epilog", .null)]

def supply (key : String) (j? : Option Json) : Option Json :=
  j?.or (defaults.lookup key)

/-- The value of a member, whether or not it is written. -/
def value? (fields : Fields) (key : String) : Option Json :=
  supply key (fields.lookup key)

theorem supply_none_of_lookup {key : String} {j : Json} (h : defaults.lookup key = some j) :
    supply key none = supply key (some j) :=
  h

variable {α : Type} {key : String} {decode : Json → Option α}

theorem required?_eq (fields : Fields) (h : defaults.lookup key = none) :
    fields.required? key decode = (fields.value? key).bind decode := by
  rw [required?, value?, supply, h, Option.or_none]

theorem optional?_eq (fields : Fields) {j : Json} {default : α}
    (h : defaults.lookup key = some j) (hd : decode j = some default) :
    fields.optional? key decode default = (fields.value? key).bind decode := by
  rw [optional?, value?, supply, h]
  cases fields.lookup key with
  | none => exact hd.symm
  | some k => rfl

end Json.Fields

theorem branchField?_eq (key : String) (fields : Json.Fields) :
    branchField? key fields = fields.optional? key (fun j => (Tree.ofJson? j).map some) none := by
  induction fields with
  | nil => rfl
  | cons member fields ih =>
    obtain ⟨k, j⟩ := member
    rw [Json.Fields.optional?] at ih ⊢
    by_cases hk : key = k
    · -- the value is looked at before the key, so each kind of value is a case of its own
      subst hk
      cases j <;> simp [branchField?, Tree.ofJson?]
    · have hb : (key == k) = false := by simp [hk]
      cases j <;> simp [branchField?, Ne.symm hk, ih, List.lookup_cons, hb]

theorem epilogField?_eq (fields : Json.Fields) :
    epilogField? fields = fields.maybe? "epilog" Node.ofJson? := by
  induction fields with
  | nil => rfl
  | cons member fields ih =>
    obtain ⟨k, j⟩ := member
    rw [Json.Fields.maybe?, Json.Fields.optional?] at ih ⊢
    by_cases hk : k = "epilog"
    · subst hk
      cases j <;> simp [epilogField?, Json.nullable?]
    · have hb : ("epilog" == k) = false := by simp [Ne.symm hk]
      cases j <;> simp [epilogField?, hk, ih, List.lookup_cons, hb]

theorem branchField?_bind {β : Type} (fields : Json.Fields) (key : String)
    (h : Json.Fields.defaults.lookup key = some (.array [])) (f : Tree → Option β) :
    (do let branch ← branchField? key fields; f (branch.getD [])) =
      (do let branch ← (fields.value? key).bind Tree.ofJson?; f branch) := by
  rw [branchField?_eq, Json.Fields.optional?, Json.Fields.value?, Json.Fields.supply, h]
  cases fields.lookup key with
  | none => rfl
  | some j => cases hj : Tree.ofJson? j <;> simp [hj]

theorem Test.ofFields?_eq (fields : Json.Fields) :
    Test.ofFields? fields = (do
      let jump ← (fields.value? "jump").bind Json.nat?
      let condition ← (fields.value? "condition").bind Condition.ofJson?
      let comparison ← (fields.value? "comparison").bind (Json.nullable? Json.nat?)
      some ⟨jump, condition, comparison⟩) := by
  have hc : fields.maybe? "comparison" Json.nat? =
      (fields.value? "comparison").bind (Json.nullable? Json.nat?) :=
    fields.optional?_eq rfl rfl
  rw [Test.ofFields?, fields.required?_eq rfl, fields.required?_eq rfl, hc]

namespace Node

theorem ofJson?_ifGoto (fields : Json.Fields) :
    ofJson? (.tagged "IfGoto" (.object fields)) = (do
      let test ← Test.ofFields? fields
      let target ← (fields.value? "target").bind Json.uint64?
      some (.ifGoto test target)) := by
  rw [Json.tagged, ofJson?, if_pos rfl, fields.required?_eq rfl]

theorem ofJson?_andIf (fields : Json.Fields) :
    ofJson? (.tagged "AndIf" (.object fields)) = (Test.ofFields? fields).map .andIf := by
  rw [Json.tagged, ofJson?, if_neg (by decide), if_pos rfl]

theorem ofJson?_ifElse (fields : Json.Fields) :
    ofJson? (.tagged "IfElse" (.object fields)) = (do
      let test ← Test.ofFields? fields
      let body ← (fields.value? "then_branch").bind Tree.ofJson?
      let otherwise ← (fields.value? "else_branch").bind Tree.ofJson?
      some (.ifElse test body otherwise)) := by
  rw [Json.tagged, ofJson?, if_neg (by decide), if_neg (by decide), if_pos rfl]
  simp only [← branchField?_bind fields "then_branch" rfl,
    ← branchField?_bind fields "else_branch" rfl]

theorem ofJson?_loop (fields : Json.Fields) :
    ofJson? (.tagged "Loop" (.object fields)) = (do
      let body ← (fields.value? "body").bind Tree.ofJson?
      let infinite ← (fields.value? "is_infinite").bind Json.bool?
      let epilog ← (fields.value? "epilog").bind (Json.nullable? Node.ofJson?)
      some (.loop body infinite epilog)) := by
  have hi : fields.optional? "is_infinite" Json.bool? false =
      (fields.value? "is_infinite").bind Json.bool? :=
    fields.optional?_eq rfl rfl
  have he : epilogField? fields = (fields.value? "epilog").bind (Json.nullable? Node.ofJson?) := by
    rw [epilogField?_eq]
    exact fields.optional?_eq rfl rfl
  have hb : fields.value? "body" = fields.lookup "body" := Option.or_none
  rw [Json.tagged, ofJson?, if_neg (by decide), if_neg (by decide), if_neg (by decide), if_pos rfl,
    hi, he, branchField?_eq, Json.Fields.optional?, hb]
  cases fields.lookup "body" with
  | none => simp
  | some j => cases hj : Tree.ofJson? j <;> simp [hj]

end Node

theorem Block.ofJson?_toJson_eq_some_iff (b : Block) :
    Block.ofJson? b.toJson = some b ↔ (Reference.block b).Fits := by
  have hj : Block.ofJson? b.toJson = (do
      let start ← (Json.ofNat b.start).nat?
      let stop ← (Json.ofNat b.stop).nat?
      some ⟨start, stop⟩) := rfl
  rw [hj]
  cases b
  simp [Option.bind_eq_some_iff, Json.nat?_ofNat_eq_some_iff, Reference.Fits]

theorem Test.ofFields?_toFields_eq_some_iff (t : Test) (own : Json.Fields)
    (h : own.lookup "comparison" = none) :
    Test.ofFields? (t.toFields own) = some t ↔ ∀ r ∈ t.references, r.Fits := by
  have hc : (t.toFields own).value? "comparison" = some (.ofOption .ofNat t.comparison) := by
    rw [Json.Fields.value?, toFields, List.lookup_append, List.lookup_append, h]
    rfl
  have hj : Test.ofFields? (t.toFields own) = (do
      let jump ← (Json.ofNat t.jump).nat?
      let condition ← Condition.ofJson? t.condition.toJson
      let comparison ← Json.nullable? Json.nat? (.ofOption .ofNat t.comparison)
      some ⟨jump, condition, comparison⟩) := by
    rw [Test.ofFields?_eq, hc]
    rfl
  rw [hj]
  cases t
  simp [Option.bind_eq_some_iff, Json.nat?_ofNat_eq_some_iff, Condition.ofJson?_toJson,
    Json.nullable?_ofOption_eq_some_iff, Test.references, Reference.Fits]

theorem bind_ofJson?_of_value? {fields : Json.Fields} {key : String} {items : List Json}
    (h : fields.value? key = some (.array items)) :
    (fields.value? key).bind Tree.ofJson? = Tree.ofJsons? items := by
  rw [h]
  rfl

theorem Node.exists_toJson_eq_tagged (n : Node) : ∃ tag j, n.toJson = .tagged tag j := by
  cases n <;> exact ⟨_, _, rfl⟩

mutual

theorem Item.ofJson?_toJson_eq_some_iff :
    (item : Item) → (Item.ofJson? item.toJson = some item ↔ ∀ r ∈ item.references, r.Fits)
  | .block b => by
    have hb := b.ofJson?_toJson_eq_some_iff
    simp [Item.toJson, Json.tagged, Item.ofJson?, Item.references, hb]
  | .node n => by
    have hn := n.ofJson?_toJson_eq_some_iff
    simp [Item.toJson, Json.tagged, Item.ofJson?, Item.references, hn]

theorem Node.ofJson?_toJson_eq_some_iff :
    (n : Node) → (Node.ofJson? n.toJson = some n ↔ ∀ r ∈ n.references, r.Fits)
  | .seq items => by
    have hi := Tree.ofJsons?_toJsons_eq_some_iff items
    simp [Node.toJson, Json.tagged, Node.ofJson?, Node.references, hi]
  | .ifGoto test target => by
    have ht := test.ofFields?_toFields_eq_some_iff [("target", .ofNat target.toNat)] rfl
    have hv : Json.Fields.value? (test.toFields [("target", .ofNat target.toNat)]) "target" =
        some (.ofNat target.toNat) := rfl
    rw [Node.toJson, Node.ofJson?_ifGoto, Node.references, ← ht, hv]
    simp [Option.bind_eq_some_iff, Json.uint64?_ofNat]
  | .andIf test => by
    have ht := test.ofFields?_toFields_eq_some_iff [] rfl
    rw [Node.toJson, Node.ofJson?_andIf, Node.references, ← ht]
    simp
  | .ifElse test body otherwise => by
    have ht := test.ofFields?_toFields_eq_some_iff
      [("then_branch", .array (Tree.toJsons body)),
        ("else_branch", .array (Tree.toJsons otherwise))] rfl
    have hb := Tree.ofJsons?_toJsons_eq_some_iff body
    have ho := Tree.ofJsons?_toJsons_eq_some_iff otherwise
    rw [Node.toJson, Node.ofJson?_ifElse, Node.references, List.forall_mem_append,
      List.forall_mem_append, ← ht, ← hb, ← ho, bind_ofJson?_of_value? rfl,
      bind_ofJson?_of_value? rfl]
    simp only [bind, Option.bind_eq_some_iff, Option.some_inj, Node.ifElse.injEq]
    constructor
    · rintro ⟨t, ht, b, hb, o, ho, rfl, rfl, rfl⟩
      exact ⟨⟨ht, hb⟩, ho⟩
    · rintro ⟨⟨ht, hb⟩, ho⟩
      exact ⟨test, ht, body, hb, otherwise, ho, rfl, rfl, rfl⟩
  | .jump target => by
    have ht := Json.uint64?_ofNat target
    rw [Json.ofNat] at ht
    simp [Node.toJson, Json.tagged, Json.ofNat, Node.ofJson?, ht, Node.references]
  | .loop body infinite epilog => by
    have hb := Tree.ofJsons?_toJsons_eq_some_iff body
    have he := epilogOfJson?_toJson_eq_some_iff epilog
    rw [Node.toJson, Node.ofJson?_loop, Node.references, List.forall_mem_append, ← hb, ← he,
      bind_ofJson?_of_value? rfl]
    simp [Option.bind_eq_some_iff, Json.Fields.value?, Json.Fields.supply, List.lookup_cons,
      Json.bool?]
  | .comment text => by simp [Node.toJson, Json.tagged, Node.ofJson?, Node.references]

theorem Tree.ofJsons?_toJsons_eq_some_iff :
    (t : List Item) → (Tree.ofJsons? (Tree.toJsons t) = some t ↔ ∀ r ∈ Tree.references t, r.Fits)
  | [] => by simp [Tree.toJsons, Tree.ofJsons?, Tree.references]
  | item :: items => by
    have hi := item.ofJson?_toJson_eq_some_iff
    have ht := Tree.ofJsons?_toJsons_eq_some_iff items
    rw [Tree.toJsons, Tree.ofJsons?, Tree.references, List.forall_mem_append, ← hi, ← ht]
    simp [Option.bind_eq_some_iff]

theorem epilogOfJson?_toJson_eq_some_iff :
    (epilog : Option Node) → (Json.nullable? Node.ofJson? (epilogToJson epilog) = some epilog ↔
      ∀ r ∈ epilogReferences epilog, r.Fits)
  | none => by simp [epilogToJson, Json.nullable?, epilogReferences]
  | some n => by
    have hn := n.ofJson?_toJson_eq_some_iff
    obtain ⟨tag, j, hj⟩ := n.exists_toJson_eq_tagged
    have ht : Json.nullable? Node.ofJson? (.tagged tag j) =
        (Node.ofJson? (.tagged tag j)).map some := rfl
    rw [epilogToJson, epilogReferences, ← hn, hj, ht]
    simp

end

mutual

/-- The second list of items is the first one after optional members of its nodes, at any depth,
have been left out. -/
inductive Tree.Omits : List Json → List Json → Prop
  | nil : Tree.Omits [] []
  | keep (j : Json) {js ks : List Json} (h : Tree.Omits js ks) : Tree.Omits (j :: js) (j :: ks)
  | node {j k : Json} (hn : Node.Omits j k) {js ks : List Json} (h : Tree.Omits js ks) :
    Tree.Omits (.tagged "Node" j :: js) (.tagged "Node" k :: ks)

inductive Node.Omits : Json → Json → Prop
  | keep (j : Json) : Node.Omits j j
  | seq {js ks : List Json} (h : Tree.Omits js ks) :
    Node.Omits (.tagged "Sequence" (.array js)) (.tagged "Sequence" (.array ks))
  | members (tag : String) {full left : Json.Fields}
    (h : ∀ key, Member.Omits key (full.lookup key) (left.lookup key)) :
    Node.Omits (.tagged tag (.object full)) (.tagged tag (.object left))

/-- A member stays, or it goes if it is optional and has the value that stands for it. What lies
inside a branch or an epilog may lose members in turn. -/
inductive Member.Omits : String → Option Json → Option Json → Prop
  | keep (key : String) (j? : Option Json) : Member.Omits key j? j?
  | default {key : String} {j : Json} (h : Json.Fields.defaults.lookup key = some j) :
    Member.Omits key (some j) none
  | branch {key : String} (hk : key ∈ ["then_branch", "else_branch", "body"]) {js ks : List Json}
    (h : Tree.Omits js ks) : Member.Omits key (some (.array js)) (some (.array ks))
  | epilog {j k : Json} (h : Node.Omits j k) : Member.Omits "epilog" (some j) (some k)

end

theorem Member.Omits.supply_eq {key : String} {a b : Option Json} (h : Member.Omits key a b)
    (hk : key ∉ ["then_branch", "else_branch", "body", "epilog"]) :
    Json.Fields.supply key a = Json.Fields.supply key b := by
  cases h with
  | keep => rfl
  | default hd => exact (Json.Fields.supply_none_of_lookup hd).symm
  | branch hb => exact absurd (List.mem_append_left ["epilog"] hb) hk
  | epilog => exact absurd (by decide) hk

theorem Node.Omits.eq_or_tagged {j k : Json} (h : Node.Omits j k) :
    j = k ∨ ∃ tag x y, j = .tagged tag x ∧ k = .tagged tag y := by
  cases h with
  | keep => exact .inl rfl
  | seq => exact .inr ⟨_, _, _, rfl, rfl⟩
  | members => exact .inr ⟨_, _, _, rfl, rfl⟩

theorem Node.ofJson?_of_tag_not_mem {tag : String}
    (h : tag ∉ ["IfGoto", "AndIf", "IfElse", "Loop"]) (fields : Json.Fields) :
    Node.ofJson? (.tagged tag (.object fields)) = none := by
  simp only [List.mem_cons, List.not_mem_nil, or_false, not_or] at h
  obtain ⟨h₁, h₂, h₃, h₄⟩ := h
  rw [Json.tagged, Node.ofJson?, if_neg h₁, if_neg h₂, if_neg h₃, if_neg h₄]

mutual

theorem Tree.Omits.ofJsons?_eq {js ks : List Json} :
    Tree.Omits js ks → Tree.ofJsons? js = Tree.ofJsons? ks
  | .nil => rfl
  | .keep j h => by rw [Tree.ofJsons?, Tree.ofJsons?, h.ofJsons?_eq]
  | .node hn h => by
    rw [Tree.ofJsons?, Tree.ofJsons?, h.ofJsons?_eq]
    simp [Json.tagged, Item.ofJson?, hn.ofJson?_eq]

theorem Node.Omits.ofJson?_eq {j k : Json} : Node.Omits j k → Node.ofJson? j = Node.ofJson? k
  | .keep j => rfl
  | .seq h => by simp [Json.tagged, Node.ofJson?, h.ofJsons?_eq]
  | @Node.Omits.members tag full left h => by
    have ht : Test.ofFields? full = Test.ofFields? left := by
      rw [Test.ofFields?_eq, Test.ofFields?_eq]
      simp only [Json.Fields.value?]
      rw [(h "jump").supply_eq (by decide), (h "condition").supply_eq (by decide),
        (h "comparison").supply_eq (by decide)]
    by_cases hg : tag = "IfGoto"
    · have hv := (h "target").supply_eq (by decide)
      rw [hg, Node.ofJson?_ifGoto, Node.ofJson?_ifGoto, ht, Json.Fields.value?, hv]
      rfl
    by_cases ha : tag = "AndIf"
    · rw [ha, Node.ofJson?_andIf, Node.ofJson?_andIf, ht]
    by_cases hi : tag = "IfElse"
    · have hb := (h "then_branch").tree_eq (by decide)
      have ho := (h "else_branch").tree_eq (by decide)
      rw [hi, Node.ofJson?_ifElse, Node.ofJson?_ifElse, ht]
      simp only [Json.Fields.value?, hb, ho]
    by_cases hl : tag = "Loop"
    · have hb := (h "body").tree_eq (by decide)
      have hv := (h "is_infinite").supply_eq (by decide)
      have he := (h "epilog").node_eq (by decide)
      rw [hl, Node.ofJson?_loop, Node.ofJson?_loop]
      simp only [Json.Fields.value?, hb, hv, he]
    · rw [Node.ofJson?_of_tag_not_mem, Node.ofJson?_of_tag_not_mem] <;> simp [hg, ha, hi, hl]

theorem Member.Omits.tree_eq {key : String} {a b : Option Json} :
    Member.Omits key a b → key ≠ "epilog" →
      (Json.Fields.supply key a).bind Tree.ofJson? =
        (Json.Fields.supply key b).bind Tree.ofJson?
  | .keep key j?, _ => rfl
  | .default hd, _ => by rw [Json.Fields.supply_none_of_lookup hd]
  | .branch _ h, _ => h.ofJsons?_eq
  | .epilog _, hk => absurd rfl hk

theorem Member.Omits.node_eq {key : String} {a b : Option Json} :
    Member.Omits key a b → key ∉ ["then_branch", "else_branch", "body"] →
      (Json.Fields.supply key a).bind (Json.nullable? Node.ofJson?) =
        (Json.Fields.supply key b).bind (Json.nullable? Node.ofJson?)
  | .keep key j?, _ => rfl
  | .default hd, _ => by rw [Json.Fields.supply_none_of_lookup hd]
  | .branch hb _, hk => absurd hb hk
  | .epilog h, _ => by
    have hn := h.ofJson?_eq
    -- null is never written for a node, and neither side of a changed epilog is null
    obtain rfl | ⟨tag, x, y, rfl, rfl⟩ := h.eq_or_tagged
    · rfl
    · exact congrArg (Option.map some) hn

end

namespace Tree

/-- A tree is read back from what is written for it exactly if its handles have 64 bits. Items from
which optional members have been left out are read as if all of these were written. -/
theorem ofJson?_toJson_and_omits :
    (∀ t : Tree, Tree.ofJson? t.toJson = some t ↔ ∀ r ∈ Tree.references t, r.Fits) ∧
    ∀ full left, Tree.Omits full left → Tree.ofJson? (.array left) = Tree.ofJson? (.array full) :=
  ⟨Tree.ofJsons?_toJsons_eq_some_iff, fun _ _ h => h.ofJsons?_eq.symm⟩

def plainLoop : Tree :=
  [.node (.ifElse ⟨1, .equal, none⟩ [] [.node (.loop [] false none)])]

def terseLoop : List Json :=
  [.tagged "Node" (.tagged "IfElse" (.object [("jump", .ofNat 1), ("condition", .string "Equal"),
    ("else_branch", .array [.tagged "Node" (.tagged "Loop" (.object [("body", .array [])]))])]))]

theorem ofJson?_terseLoop :
    (∀ r ∈ Tree.references plainLoop, r.Fits) ∧ Tree.ofJson? plainLoop.toJson = some plainLoop ∧
    Tree.Omits (Tree.toJsons plainLoop) terseLoop ∧
    Tree.ofJson? (.array terseLoop) = some plainLoop := by
  have hf : ∀ r ∈ Tree.references plainLoop, r.Fits := by decide
  have hr := (ofJson?_toJson_and_omits.1 plainLoop).mpr hf
  have hl : Tree.Omits (Tree.toJsons [.node (.loop [] false none)])
      [.tagged "Node" (.tagged "Loop" (.object [("body", .array [])]))] := by
    refine .node (.members "Loop" fun key => ?_) .nil
    by_cases hi : key = "is_infinite"
    · rw [hi]
      exact .default rfl
    by_cases he : key = "epilog"
    · rw [he]
      exact .default rfl
    · simp only [List.lookup_cons, beq_false_of_ne hi, beq_false_of_ne he]
      exact .keep key _
  have ho : Tree.Omits (Tree.toJsons plainLoop) terseLoop := by
    refine .node (.members "IfElse" fun key => ?_) .nil
    by_cases hc : key = "comparison"
    · rw [hc]
      exact .default rfl
    by_cases hb : key = "then_branch"
    · rw [hb]
      exact .default rfl
    by_cases he : key = "else_branch"
    · rw [he]
      exact .branch (by decide) hl
    · simp only [Test.toFields, List.cons_append, List.nil_append, List.lookup_cons,
        beq_false_of_ne hc, beq_false_of_ne hb, beq_false_of_ne he]
      exact .keep key _
  exact ⟨hf, hr, ho, (ofJson?_toJson_and_omits.2 _ _ ho).trans hr⟩

end Tree

end Pseudocode
