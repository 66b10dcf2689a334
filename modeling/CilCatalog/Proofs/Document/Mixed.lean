import CilCatalog.Proofs.Document.Accepted
import CilCatalog.Proofs.Document.Tree

/-!
# Trees in both styles at once

A document need not keep to one style.  In a tree that is written as objects, any argument may be a text, and any token a bare number or a bare string; the members of an object come in any order, and others may stand between them.  `MixedTree v t` says that `v` is the tree `t` in such a mixture.  It is read as `t` whenever `t` has a text (`mixed_trees_read`), and nothing but trees that have one is ever read.  What the writer writes in either style is a mixture as well, so that it is read back (`tree_roundTrips`).

The induction is on how the mixture is put together.  A text is the business of the parser, and at an object the induction gives the arguments, so that what is left to show of each kind of node is how the node itself is read (`node_read`).
-/

namespace CilCatalog

variable {ms : List (Bytes × Json)}

/-! ### Mixtures -/

/-- The value is the token, bare or as an object with an index or a name. -/
inductive MixedToken : Json → Token → Prop
  | bareIndex (i : Int32) : MixedToken (Encode.int32 i) (.index i)
  | bareName (n : TokenName) : MixedToken (.string n.bytes) (.named n)
  | index {i : Int32} {ms : List (Bytes × Json)}
      (index : Json.present? ms "Index" = some (Encode.int32 i)) : MixedToken (.object ms) (.index i)
  | name {n : TokenName} {ms : List (Bytes × Json)} (unindexed : Json.present? ms "Index" = none)
      (name : Json.present? ms "Name" = some (.string n.bytes)) : MixedToken (.object ms) (.named n)

/-- The members hold what a node has besides its kind and its arguments: a token or the number of an integer, or the code of a signature. -/
def MixedLabel (ms : List (Bytes × Json)) : SigTree → Prop
  | .token t     => ∃ v, Json.present? ms "Token" = some v ∧ MixedToken v t
  | .int32 i     => ∃ v, Json.present? ms "Token" = some v ∧ MixedToken v (.index i)
  | .typeSig c _ => Json.present? ms "Type" = some (Encode.code c)
  | .callSig c _ => Json.present? ms "Type" = some (Encode.code c)
  | _            => True

/-- The members hold the arguments `vs`; where there are none, they need not be mentioned. -/
def MixedArguments (ms : List (Bytes × Json)) (vs : List Json) : Prop :=
  Json.present? ms "Arguments" = some (.array vs) ∨ Json.present? ms "Arguments" = none ∧ vs = []

mutual

/-- The value is the tree, either as its text or as an object whose arguments are mixtures again. -/
inductive MixedTree : Json → SigTree → Prop
  | text {s : Bytes} {t : SigTree} (text : t.format = .ok s) : MixedTree (.string s) t
  | node {ms : List (Bytes × Json)} {vs : List Json} {t : SigTree}
      (kind : Json.present? ms "Kind" = some (Encode.kind t.kind).2) (label : MixedLabel ms t)
      (arguments : MixedArguments ms vs) (args : MixedTrees vs t.args) : MixedTree (.object ms) t

/-- The values are the trees, one by one. -/
inductive MixedTrees : List Json → List SigTree → Prop
  | nil : MixedTrees [] []
  | cons {v : Json} {vs : List Json} {a : SigTree} {as : List SigTree} (first : MixedTree v a)
      (rest : MixedTrees vs as) : MixedTrees (v :: vs) (a :: as)

end

/-! ### Members -/

theorem required_of_present? {k : Bytes} {v : Json} (h : Json.present? ms k = some v) :
    Decode.required ms k = .ok v := by
  rw [Decode.required, h]

theorem find?_of_present? {k : Bytes} {v : Json} (h : Json.present? ms k = some v) :
    Json.find? ms k = some v := by
  unfold Json.present? at h
  split at h
  · cases h
  · exact h

/-- The arguments of a node are read from the member that holds them, if there is one. -/
theorem arguments_of_mixed {vs : List Json} (h : MixedArguments ms vs) :
    Decode.arguments ms = Decode.trees vs := by
  induction ms with
  | nil =>
      obtain h | ⟨-, rfl⟩ := h
      · cases h
      · rfl
  | cons m ms ih =>
      obtain ⟨k, v⟩ := m
      by_cases hk : k = utf8 "Arguments"
      · subst hk
        rw [Decode.arguments, if_pos rfl]
        obtain h | ⟨h, rfl⟩ := h
        · have found := find?_of_present? h
          rw [Json.find?_cons, if_pos rfl] at found
          cases found
          rfl
        · -- a member that counts as absent although it is there is null
          unfold Json.present? at h
          rw [Json.find?_cons, if_pos rfl] at h
          cases v <;> first | rfl | cases h
      · rw [arguments_skip hk]
        refine ih ?_
        simpa only [MixedArguments, Json.present?, Json.find?_cons, if_neg hk] using h

/-! ### The two styles of the writer -/

theorem present?_of_find?_some {k : Bytes} {v : Json} (h : Json.find? ms k = some v)
    (hv : v ≠ .null) : Json.present? ms k = some v :=
  Json.present?_of_find? h fun _ hu => by cases hu; exact hv

theorem present?_of_find?_none {k : Bytes} (h : Json.find? ms k = none) :
    Json.present? ms k = none :=
  Json.present?_of_find? h nofun

theorem index_present (i : Int32) :
    Json.present? [Encode.member "Index" (Encode.int32 i)] "Index" = some (Encode.int32 i) :=
  present?_of_find?_some (by simp [Encode.member]) (int32_solid i).1

theorem index_absent (b : Bytes) :
    Json.present? [Encode.member "Name" (.string b)] "Index" = none :=
  present?_of_find?_none (by simp [Encode.member, utf8_inj])

theorem name_present (b : Bytes) :
    Json.present? [Encode.member "Name" (.string b)] "Name" = some (.string b) :=
  present?_of_find?_some (by simp [Encode.member]) (string_solid b).1

theorem mixedToken_written (s : DocumentStyle) (t : Token) : MixedToken (Encode.token s t) t := by
  cases s with
  | compact => cases t with
    | index i => exact .bareIndex i
    | named n => exact .bareName n
  | structured => cases t with
    | index i => exact .index (index_present i)
    | named n => exact .name (index_absent n.bytes) (name_present n.bytes)

/-- Arguments are left out if and only if there are none. -/
theorem mixedArguments_written {vs : List Json}
    (h : Json.find? ms "Arguments" = Json.find? (Encode.arguments vs) "Arguments") :
    MixedArguments ms vs := by
  cases vs with
  | nil => exact .inr ⟨present?_of_find?_none h, rfl⟩
  | cons v vs =>
      refine .inl (present?_of_find?_some (h.trans ?_) nofun)
      simp [Encode.arguments, Encode.member]

section Nodes

variable (k : NodeKind) (c : UInt8) (t : Token) (vs : List Json)

theorem kind_written (ms : List (Bytes × Json)) :
    Json.present? (Encode.kind k :: ms) "Kind" = some (Encode.kind k).2 :=
  present?_of_find?_some (by simp [Encode.kind, Encode.member]) nofun

/-- A node without a label. -/
theorem plain_written : MixedArguments (Encode.kind k :: Encode.arguments vs) vs :=
  mixedArguments_written (by simp [Encode.kind, Encode.member, utf8_inj])

/-- A node with a code. -/
theorem coded_written :
    let ms := Encode.kind k :: Encode.member "Type" (Encode.code c) :: Encode.arguments vs
    Json.present? ms "Type" = some (Encode.code c) ∧ MixedArguments ms vs := by
  refine ⟨present?_of_find?_some ?_ (code_solid c).1, mixedArguments_written ?_⟩
  · simp [Encode.kind, Encode.member, utf8_inj]
  · simp [Encode.kind, Encode.member, utf8_inj]

/-- A node with a token. -/
theorem labelled_written :
    let ms := [Encode.kind k, Encode.member "Token" (Encode.token .structured t)]
    (∃ v, Json.present? ms "Token" = some v ∧ MixedToken v t) ∧ MixedArguments ms [] := by
  refine ⟨⟨_, present?_of_find?_some ?_ (token_solid .structured t).1, mixedToken_written _ t⟩,
    mixedArguments_written ?_⟩
  · simp [Encode.kind, Encode.member, utf8_inj]
  · simp [Encode.kind, Encode.member, Encode.arguments, utf8_inj]

end Nodes

mutual

theorem mixedTree_structured : ∀ t : SigTree, MixedTree (Encode.structuredTree t) t
  | .token t => by
      obtain ⟨label, arguments⟩ := labelled_written .token t
      exact .node (kind_written _ _) label arguments .nil
  | .typeSig c as => by
      obtain ⟨label, arguments⟩ := coded_written .typeSig c (Encode.structuredTrees as)
      exact .node (kind_written _ _) label arguments (mixedTrees_structured as)
  | .callSig c as => by
      obtain ⟨label, arguments⟩ := coded_written .callSig c (Encode.structuredTrees as)
      exact .node (kind_written _ _) label arguments (mixedTrees_structured as)
  | .int32 i => by
      obtain ⟨label, arguments⟩ := labelled_written .int32 (.index i)
      exact .node (kind_written _ _) label arguments .nil
  | .methodSpec m i =>
      .node (kind_written _ _) trivial (plain_written _ _)
        (.cons (mixedTree_structured m) (.cons (mixedTree_structured i) .nil))
  | .inline k o =>
      .node (kind_written _ _) trivial (plain_written _ _) (.cons (mixedTree_structured o) .nil)

theorem mixedTrees_structured : ∀ as : List SigTree, MixedTrees (Encode.structuredTrees as) as
  | []      => .nil
  | a :: as => .cons (mixedTree_structured a) (mixedTrees_structured as)

end

/-- What is written in one style alone is a mixture. -/
theorem mixedTree_written {s : DocumentStyle} {t : SigTree} {v : Json}
    (h : Encode.tree s t = .ok v) : MixedTree v t := by
  cases s with
  | structured =>
      cases h
      exact mixedTree_structured t
  | compact =>
      obtain ⟨text, ht, h⟩ := bind_eq_ok.1 h
      cases h
      exact .text ht

/-! ### Tokens and nodes -/

theorem mixedToken_read {negative : Bool} {v : Json} {t : Token} (h : MixedToken v t)
    (ht : negative = true ∨ t.Durable) : Decode.anyToken negative v = .ok t := by
  cases h with
  | bareIndex i => exact tokenIndex_read ht
  | bareName n => exact tokenName_read n
  | index index =>
      rw [Decode.anyToken, index]
      exact tokenIndex_read ht
  | name unindexed name =>
      rw [Decode.anyToken, unindexed]
      change (Decode.required _ "Name" >>= Decode.string "Name" >>= Decode.tokenName) = _
      rw [required_of_present? name]
      exact tokenName_read _

/-- A node is read from its arguments and its label; whether they suit each other is what having a text means. -/
theorem node_read {t : SigTree} (label : MixedLabel ms t) (h : t.Formattable) :
    Decode.node ms t.args t.kind = .ok t := by
  cases t with
  | token t =>
      obtain ⟨v, hv, mixed⟩ := label
      have durable := durable_of_formattable h
      rw [SigTree.kind, Decode.node, required_of_present? hv, ok_bind, Decode.token,
        mixedToken_read mixed (.inr durable)]
      exact ofToken_of_durable durable
  | int32 i =>
      obtain ⟨v, hv, mixed⟩ := label
      rw [SigTree.kind, Decode.node, required_of_present? hv, ok_bind,
        mixedToken_read mixed (.inl rfl)]
      rfl
  | typeSig c as =>
      rw [SigTree.kind, Decode.node, code_read (find?_of_present? label)]
      exact checked_of_formattable h
  | callSig c as =>
      rw [SigTree.kind, Decode.node, code_read (find?_of_present? label)]
      exact checked_of_formattable h
  | methodSpec m i => rfl
  | inline k o => cases k <;> rfl

/-- The text of a tree is read as the tree. -/
theorem text_read {t : SigTree} {s : Bytes} (h : t.format = .ok s) :
    Decode.tree (.string s) = .ok t := by
  have spelled := SigTree.Spells.of_format h
  have nonempty : s.isEmpty = false := by simpa using spelled.ne_nil
  rw [Decode.tree, nonempty, if_neg Bool.false_ne_true,
    SigTree.parse_eq_ok_iff_spells.2 (.inl spelled)]
  rfl

/-! ### Trees -/

mutual

theorem mixedTree_read {v : Json} {t : SigTree} (h : t.Formattable) :
    MixedTree v t → Decode.tree v = .ok t
  | .text text => text_read text
  | .node kind label arguments args => by
      have read := mixedTrees_read h.args args
      rw [← arguments_of_mixed arguments] at read
      exact tree_of_parts (find?_of_present? kind) read (node_read label h)

theorem mixedTrees_read {vs : List Json} {as : List SigTree} (h : ∀ a ∈ as, a.Formattable) :
    MixedTrees vs as → Decode.trees vs = .ok as
  | .nil => rfl
  | .cons first rest => by
      obtain ⟨ha, has⟩ := List.forall_mem_cons.1 h
      rw [Decode.trees, mixedTree_read ha first, mixedTrees_read has rest]
      rfl

end

/-- A formattable tree is read back in both styles. -/
theorem tree_roundTrips (s : DocumentStyle) {t : SigTree} (h : t.Formattable) :
    RoundTrips (Encode.tree s t) Decode.tree t := by
  have read : ∀ v, Encode.tree s t = .ok v → Decode.tree v = .ok t := fun v hv =>
    mixedTree_read h (mixedTree_written hv)
  cases s with
  | structured => exact .pure (structuredTree_solid t) (read _ rfl)
  | compact =>
      obtain ⟨u, hu⟩ := h
      have written : Encode.tree .compact t = .ok (.string u) := by
        rw [Encode.tree, hu]
        rfl
      exact ⟨.string u, written, string_solid u, read _ written⟩

/-- A tree that has a text is read from every mixture of the two styles, and whatever tree is read, from any value at all, has a text. -/
theorem mixed_trees_read :
    (∀ t v, t.Formattable → MixedTree v t → Decode.tree v = .ok t) ∧
      ∀ v t, Decode.tree v = .ok t → t.Formattable := by
  refine ⟨?read, ?formattable⟩
  case read =>
    intro t v h mixed
    exact mixedTree_read h mixed
  case formattable =>
    intro v t h
    exact formattable_of_tree h

/-- An instance with two arguments: a class is given as its text, the number of arguments with a bare token, the first argument as objects, and the second as an object around a text, with its members in another order and a null between them. -/
def motley : Json :=
  .object
    [("Arguments", .array
        [.string "Class(7)", .object [("Kind", .int 3), ("Token", .int 2)],
          Encode.structuredTree (SigTree.ofElement .i4),
          .object [("Arguments", .array [.string "String"]), ("Token", .null), ("Type", .int 29), ("Kind", .int 1)]]),
      ("Type", .int 21), ("Kind", .int 1)]

theorem mixed_trees_read_motley :
    let t := SigTree.ofElement .genericInst
      [.ofElement .cls [.token (.index 7)], .int32 2, .ofElement .i4,
        .ofElement .szArray [.ofElement .string]]
    Decode.tree motley = .ok t ∧ t.Formattable := by
  intro t
  have element : MixedTree (.object [("Arguments", .array [.string "String"]), ("Token", .null),
      ("Type", .int 29), ("Kind", .int 1)]) (.ofElement .szArray [.ofElement .string]) :=
    .node rfl rfl (.inl rfl) (.cons (.text rfl) .nil)
  have mixed : MixedTree motley t := by
    refine .node rfl rfl (.inl rfl) (.cons (.text rfl) (.cons ?_ (.cons ?_ (.cons element .nil))))
    · exact .node rfl ⟨_, rfl, .bareIndex 2⟩ (.inr ⟨rfl, rfl⟩) .nil
    · exact mixedTree_structured _
  have read := mixed_trees_read.1 t motley ⟨_, rfl⟩ mixed
  exact ⟨read, mixed_trees_read.2 motley t read⟩

end CilCatalog
