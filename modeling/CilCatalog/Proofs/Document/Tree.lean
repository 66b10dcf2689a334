import CilCatalog.Proofs.Base64
import CilCatalog.Proofs.Document.Durable
import CilCatalog.Proofs.Document.Members
import CilCatalog.Proofs.SigTree.Format

/-!
# Numbers, tokens and trees in documents

The leaves of a document are read back: numbers of each width, and tokens in both styles.  A signature tree is read from the parts of its node; the objects it is written as name their members differently, by induction on the tree.
-/

namespace CilCatalog

open SigTree (FormatFault)

/-! ### Numbers -/

theorem integer_of_bounds {what : Bytes} {lo hi : Int} {i : Int64} (h₁ : lo ≤ i.toInt)
    (h₂ : i.toInt ≤ hi) : Decode.integer what lo hi (.int i) = .ok i := by
  rw [Decode.integer]
  exact if_neg (by omega)

theorem int32_read (what : Bytes) (n : Int32) : Decode.int32 what (Encode.int32 n) = .ok n := by
  have lo := n.le_toInt
  have hi := n.toInt_lt
  rw [Decode.int32, Encode.int32, integer_of_bounds (by rw [Int32.toInt_toInt64]; omega)
    (by rw [Int32.toInt_toInt64]; omega)]
  exact congrArg Except.ok n.toInt32_toInt64

theorem int_solid (i : Int64) : (Json.int i).Solid := ⟨nofun, trivial⟩

theorem int32_solid (n : Int32) : (Encode.int32 n).Solid := int_solid _

theorem string_solid (s : Bytes) : (Json.string s).Solid := ⟨nofun, trivial⟩

theorem requiredInt32_of_find? {ms : List (Bytes × Json)} {k : Bytes} {n : Int32}
    (h : Json.find? ms k = some (Encode.int32 n)) : Decode.requiredInt32 ms k = .ok n := by
  rw [Decode.requiredInt32, required_of_find? h (int32_solid n).1]
  exact int32_read k n

theorem bytes_roundTrips (what b : Bytes) :
    RoundTrips (.ok (Encode.bytes b)) (Decode.bytes what) b := by
  refine .pure (string_solid _) ?_
  have hs : Decode.string what (.string (Base64.encode b)) = .ok (Base64.encode b) := rfl
  rw [Decode.bytes, Encode.bytes, hs, ok_bind, Base64.decode_encode]
  rfl

theorem string_roundTrips (what b : Bytes) : RoundTrips (.ok (.string b)) (Decode.string what) b :=
  .pure (string_solid b) rfl

theorem toInt_code (c : UInt8) : (Int64.ofNat c.toNat).toInt = c.toNat := by
  have h := c.toNat_lt
  exact Int64.toInt_ofNat_of_lt (by omega)

theorem code_solid (c : UInt8) : (Encode.code c).Solid := int_solid _

/-- The number of a code is read as the code. -/
theorem code_read {ms : List (Bytes × Json)} {c : UInt8}
    (h : Json.find? ms "Type" = some (Encode.code c)) : Decode.code ms = .ok c := by
  have hc := c.toNat_lt
  have e : Decode.integer "Type" 0 255 (Encode.code c) = .ok (Int64.ofNat c.toNat) :=
    integer_of_bounds (by rw [toInt_code]; omega) (by rw [toInt_code]; omega)
  have back : (Int64.ofNat c.toNat).toUInt64.toUInt8 = c := by
    rw [← UInt8.toNat_inj]
    change c.toNat % 2 ^ 64 % 2 ^ 8 = c.toNat
    omega
  rw [Decode.code, required_of_find? h (code_solid c).1]
  change (Decode.integer "Type" 0 255 (Encode.code c) >>= fun i => _) = _
  rw [e]
  exact congrArg Except.ok back

/-! ### Tokens -/

theorem tokenName_read (n : TokenName) : Decode.tokenName n.bytes = .ok (.named n) := by
  rw [Decode.tokenName, Token.ofName, TokenName.ofBytes_bytes]
  rfl

theorem tokenIndex_read {negative : Bool} {i : Int32} (h : negative = true ∨ 0 ≤ i.toInt) :
    Decode.tokenIndex negative (Encode.int32 i) = .ok (.index i) := by
  have lo := i.le_toInt
  have hi := i.toInt_lt
  have e : Decode.integer "Index" (if negative then -0x80000000 else 0) 0x7FFFFFFF (Encode.int32 i) =
      .ok i.toInt64 := by
    refine integer_of_bounds ?_ (by rw [Int32.toInt_toInt64]; omega)
    rw [Int32.toInt_toInt64]
    split
    · omega
    · next hn => exact h.resolve_left hn
  rw [Decode.tokenIndex, e]
  exact congrArg (fun n => Except.ok (Token.index n)) i.toInt32_toInt64

/-- A token is read back from both of its forms; its index may be negative where an integer is due. -/
theorem anyToken_read (s : DocumentStyle) {negative : Bool} {t : Token}
    (h : negative = true ∨ t.Durable) : Decode.anyToken negative (Encode.token s t) = .ok t := by
  cases s with
  | compact =>
      cases t with
      | named n => exact tokenName_read n
      | index i => exact tokenIndex_read h
  | structured =>
      cases t with
      | named n =>
          have e : Json.present? [Encode.member "Name" (.string n.bytes)] "Index" = none := by
            simp [Json.present?, Encode.member, utf8_inj]
          rw [Encode.token, Decode.anyToken, e]
          exact tokenName_read n
      | index i =>
          have e : Json.present? [Encode.member "Index" (Encode.int32 i)] "Index" =
              some (Encode.int32 i) := by
            refine Json.present?_of_find? (by simp [Encode.member]) ?_
            rintro _ ⟨⟩
            exact nofun
          rw [Encode.token, Decode.anyToken, e]
          exact tokenIndex_read h

theorem token_solid (s : DocumentStyle) (t : Token) : (Encode.token s t).Solid := by
  cases s with
  | compact =>
      cases t with
      | index i => exact int32_solid i
      | named n => exact string_solid n.bytes
  | structured => cases t <;> exact ⟨nofun, List.pairwise_singleton _ _, trivial, trivial⟩

theorem token_roundTrips (s : DocumentStyle) {t : Token} (h : t.Durable) :
    RoundTrips (.ok (Encode.token s t)) Decode.token t :=
  .pure (token_solid s t) (anyToken_read s (.inr h))

/-! ### Trees as objects -/

open Encode (structuredTree structuredTrees)

theorem kind_read {ms : List (Bytes × Json)} {k : NodeKind}
    (h : Json.find? ms "Kind" = some (Encode.kind k).2) : Decode.kind ms = .ok k := by
  rw [Decode.kind, required_of_find? h nofun]
  cases k <;> rfl

theorem arguments_skip {k : Bytes} {v : Json} {ms : List (Bytes × Json)}
    (h : k ≠ utf8 "Arguments") : Decode.arguments ((k, v) :: ms) = Decode.arguments ms := by
  rw [Decode.arguments, if_neg h]

theorem arguments_arranged {vs : List Json} (h : Json.DistinctKeysElements vs) :
    Json.Arranged [utf8 "Arguments"] (Encode.arguments vs) := by
  cases vs with
  | nil => exact ⟨List.nil_sublist _, trivial⟩
  | cons v vs => exact ⟨List.Sublist.refl _, h, trivial⟩

/-- The keys of a node are told apart. -/
theorem node_keys : [utf8 "Kind", utf8 "Type", utf8 "Arguments"].Nodup := by
  decide

mutual

theorem structuredTree_solid : ∀ t : SigTree, (structuredTree t).Solid
  | .token t =>
      (Json.Arranged.int (.cons (token_solid _ t).2 .nil)).solid (by decide)
  | .typeSig c as =>
      (Json.Arranged.int (.int (arguments_arranged (structuredTrees_distinct as)))).solid node_keys
  | .callSig c as =>
      (Json.Arranged.int (.int (arguments_arranged (structuredTrees_distinct as)))).solid node_keys
  | .int32 v =>
      (Json.Arranged.int (.cons (token_solid _ (.index v)).2 .nil)).solid (by decide)
  | .methodSpec m i => by
      have hm := structuredTree_solid m
      have hi := structuredTree_solid i
      have ha : Json.DistinctKeysElements [structuredTree m, structuredTree i] := ⟨hm.2, hi.2, trivial⟩
      exact (Json.Arranged.int (arguments_arranged ha)).solid (by decide)
  | .inline k o => by
      have ho := structuredTree_solid o
      have ha : Json.DistinctKeysElements [structuredTree o] := ⟨ho.2, trivial⟩
      exact (Json.Arranged.int (arguments_arranged ha)).solid (by decide)

theorem structuredTrees_distinct : ∀ as : List SigTree, Json.DistinctKeysElements (structuredTrees as)
  | []      => trivial
  | a :: as => ⟨(structuredTree_solid a).2, structuredTrees_distinct as⟩

end

/-- A tree with a text passes the check for one. -/
theorem checked_of_formattable {t : SigTree} (h : t.Formattable) : Decode.checked t = .ok t := by
  obtain ⟨s, h⟩ := h
  rw [Decode.checked, h]

/-- A node is read from its kind, its arguments and its other members. -/
theorem tree_of_parts {ms : List (Bytes × Json)} {k : NodeKind} {as : List SigTree} {t : SigTree}
    (hk : Json.find? ms "Kind" = some (Encode.kind k).2) (ha : Decode.arguments ms = .ok as)
    (hn : Decode.node ms as k = .ok t) : Decode.tree (.object ms) = .ok t := by
  rw [Decode.tree, kind_read hk, ha]
  exact hn

/-- A formattable leaf has a token that a document keeps. -/
theorem durable_of_formattable {t : Token} (h : (SigTree.token t).Formattable) : t.Durable := by
  obtain ⟨s, h⟩ := h
  cases t with
  | named n => trivial
  | index i =>
      rw [SigTree.format] at h
      split at h
      · exact nomatch h
      · next hi =>
          rw [Int32.lt_iff_toInt_lt, Int32.toInt_zero] at hi
          exact Int.not_lt.1 hi

theorem ofToken_of_durable {φ : Type} {t : Token} (h : t.Durable) :
    (SigTree.ofToken t : Except (Failure φ) SigTree) = .ok (.token t) := by
  cases t with
  | named n => rfl
  | index i =>
      have hi : ¬ i < 0 := by
        rw [Int32.lt_iff_toInt_lt, Int32.toInt_zero]
        exact Int.not_lt.2 h
      rw [SigTree.ofToken, if_neg hi]

end CilCatalog
