import CilCatalog.Proofs.Document.Stable
import CilCatalog.Proofs.Json.Limits

/-!
# Structured texts and the limit of their reader

A structured document takes two levels for every node of a tree, and its reader allows 512 levels in all.  So a catalog whose trees are high enough has a structured text that is refused, although a compact text of it is read (`Catalog.not_ofText_structured_pointers`); apart from this limit every structured text is read back (`Catalog.ofText_structured_of_ofText`).
-/

namespace CilCatalog

/-- The trees of a section are those of the map whose entities it holds. -/
theorem PartitionSection.Holds.trees {named : Bool} {ι δ : Type} {s : PartitionSection ι δ}
    {m : TokenMap named (Entity ι δ)} (h : s.Holds m) {identity : ι → List SigTree}
    {data : δ → List SigTree} {t : SigTree} (ht : t ∈ s.trees identity data) :
    t ∈ m.values.flatMap (Entity.trees identity data) := by
  rcases List.mem_append.1 ht with ht | ht
  · obtain ⟨e, he, ht⟩ := List.mem_flatMap.1 ht
    exact List.mem_flatMap.2 ⟨_, h.reference he, List.mem_append_left _ ht⟩
  · obtain ⟨e, he, ht⟩ := List.mem_flatMap.1 ht
    refine List.mem_flatMap.2 ⟨_, h.definition he, ?_⟩
    simpa [Entity.trees, Entity.identity, Entity.data?] using ht

theorem Partition.trees_subset {p : Partition} {c : Catalog} (types : p.types.Holds c.types)
    (fields : p.fields.Holds c.fields) (methods : p.methods.Holds c.methods) :
    p.trees ⊆ c.trees := by
  intro t ht
  rcases List.mem_append.1 ht with ht | ht
  · rcases List.mem_append.1 ht with ht | ht
    · exact List.mem_append_left _ (List.mem_append_left _ (types.trees ht))
    · exact List.mem_append_left _ (List.mem_append_right _ (fields.trees ht))
  · exact List.mem_append_right _ (methods.trees ht)

namespace Catalog

/-- The text of a document that nests too deep is malformed. -/
theorem ofText_refused_of_depth {v : Json} (pretty : Bool) (h : 512 < v.depth) :
    ∃ f, (ofText (v.text pretty)).result = .error (.fault f) ∧ Fault.kind f = .invalidData := by
  obtain ⟨f, hf⟩ := Json.parse_text_refused pretty fun ⟨_, hd⟩ => Nat.not_le.2 h hd
  refine ⟨.json f, ?_, rfl⟩
  rw [ofText, hf]
  rfl

/-- A catalog that was read from a text, however that was written, has a structured text.  The catalog that is read from it is the same if its document keeps to the limit of the reader, as it does where no tree is higher than 252 nodes; and if not, the text is refused as malformed. -/
theorem ofText_structured_of_ofText {t : Bytes} {c : Catalog} (h : (ofText t).result = .ok c)
    (pretty : Bool) : ∃ v : Json, (c.toJson .structured).result = .ok v ∧
      (c.toText .structured pretty).result = .ok (v.text pretty) ∧
      (v.depth ≤ 512 → ∃ c', (ofText (v.text pretty)).result = .ok c' ∧ c' = c ∧ c.same c' = true) ∧
      (512 < v.depth →
        ∃ f, (ofText (v.text pretty)).result = .error (.fault f) ∧ Fault.kind f = .invalidData) ∧
      ((∀ u ∈ c.trees, u.height ≤ 252) → v.depth ≤ 512) := by
  obtain ⟨p, durable, joined⟩ := durable_of_ofText h
  obtain ⟨p', taken, options, types, fields, methods, back⟩ :=
    Partition.holds_ofCatalog (Partition.turnsFit_of_toCatalog joined)
  have durable' := durable.of_toCatalog joined options types fields methods
  obtain ⟨v, written, solid, read⟩ := partition_roundTrips .structured durable'
  have document := result_toJson taken written
  refine ⟨v, document, ?_, fun depth => ?_, ofText_refused_of_depth pretty, fun low => ?_⟩
  · rw [toText, Warned.result_bind, document]
    rfl
  · exact ⟨c, (ofText_of_document pretty taken back written solid read depth).2, rfl, same_self c⟩
  · have trees : Encode.TreesWithin .structured (2 * 252) p'.trees :=
      Encode.treesWithin_structured fun u hu =>
        low u (Partition.trees_subset types fields methods hu)
    exact Encode.document_within_of_trees (by decide) trees written

/-- A pointer to a pointer, `n` times in all, to an integer. -/
def pointers : Nat → SigTree
  | 0     => SigTree.ofElement .i4
  | n + 1 => SigTree.ofElement .ptr [pointers n]

theorem pointers_spelled : ∀ n, ∃ u, SigTree.Spells u (pointers n)
  | 0     => ⟨_, .leaf rfl⟩
  | n + 1 => by
      obtain ⟨u, hu⟩ := pointers_spelled n
      exact ⟨_, .node (.element (e := .ptr) rfl (.cons (.node _) .nil)) (.one hu)⟩

theorem depth_pointers (n : Nat) : (Encode.structuredTree (pointers n)).depth = 2 * n + 1 := by
  induction n with
  | zero => rfl
  | succ n ih =>
      change max 0 (max 0 (max (max (Encode.structuredTree (pointers n)).depth 0 + 1) 0)) + 1 = _
      rw [ih]
      omega

/-- A catalog with a type and a reference to a field of it, whose type is a pointer. -/
def pointerField (n : Nat) : Catalog :=
  let field : MemberIdentity :=
    ⟨"p", .token (.index 0), SigTree.ofConvention .field [.int32 0, pointers n]⟩
  ⟨⟨0⟩, ⟨[(.index 0, .reference ⟨"T", "", none, none⟩)], ⟨by decide, rfl⟩⟩,
    ⟨[(.index 0, .reference field)], ⟨by simp, rfl⟩⟩, .empty⟩

theorem pointerField_indexed (n : Nat) : (pointerField n).options.namedTokens = false := by
  change (⟨0⟩ : Options).namedTokens = false
  decide

/-- The field, its signature and each pointer take two levels. -/
theorem depth_pointerField (n : Nat) :
    ∃ v : Json, ((pointerField n).toJson .structured).result = .ok v ∧ 2 * n + 7 ≤ v.depth := by
  refine ⟨_, rfl, ?_⟩
  -- all that is not on the way down to the pointers lies less deep than they do
  simp only [Json.depth, Json.depthMembers, Json.depthElements, Encode.member, Encode.typeIdentity,
    Encode.optional, Encode.list, Encode.structuredTree, Encode.structuredTrees, Encode.arguments,
    Encode.kind, Encode.token, Encode.int32, Encode.code, SigTree.ofConvention, depth_pointers,
    pointerField_indexed, Bool.false_eq_true, ↓reduceIte, List.reverse_cons, List.reverse_nil,
    List.nil_append, List.append_nil, List.map_nil]
  omega

theorem pointerField_durable (n : Nat) : (pointerField n).Durable := by
  obtain ⟨u, hu⟩ := pointers_spelled n
  obtain ⟨w, hw⟩ : ∃ w, SigTree.Spells w (SigTree.ofConvention .field [.int32 0, pointers n]) :=
    ⟨_, .node (.convention (.cons (.node _) .nil)) (.cons (.int32 (Bytes.numeral_signedDecimal _)) (.one hu))⟩
  have indexed : ∀ k : Nat, (pointerField n).options.namedTokens = true → k ≤ 0x80000000 :=
    fun _ h => absurd ((pointerField_indexed n).symm.trans h) Bool.false_ne_true
  refine ⟨by simp [pointerField], ⟨indexed _, fun _ _ => trivial, fun e he d hd => ?_⟩,
    ⟨indexed _, fun e he => ?_, fun e he d hd => ?_⟩,
    ⟨indexed _, fun _ he => absurd he List.not_mem_nil, fun _ he => absurd he List.not_mem_nil⟩⟩
  · cases List.mem_singleton.1 he
    cases hd
  · cases List.mem_singleton.1 he
    exact ⟨⟨_, rfl⟩, hw.formattable⟩
  · cases List.mem_singleton.1 he
    cases hd

/-- A compact text of the catalog is read. -/
theorem pointerField_read (n : Nat) : ∃ t, ((pointerField n).toText .compact false).result = .ok t ∧
    (ofText t).result = .ok (pointerField n) := by
  obtain ⟨p, taken, options, types, fields, methods, back⟩ :=
    Partition.ofCatalog_toCatalog (pointerField n) (pointerField_durable n).types.size
      (pointerField_durable n).fields.size (pointerField_durable n).methods.size
  obtain ⟨v, written, solid, read⟩ :=
    document_roundTrips .compact (pointerField_durable n) options types fields methods
  have depth : v.depth ≤ 512 := (Encode.document_within written).mono (by decide)
  exact ⟨_, ofText_of_document false taken back written solid read depth⟩

/-- A single pointer is low enough. -/
theorem ofText_structured_of_ofText_pointer : ∃ t t', (ofText t).result = .ok (pointerField 1) ∧
    ((pointerField 1).toText .structured true).result = .ok t' ∧
    (ofText t').result = .ok (pointerField 1) := by
  obtain ⟨t, -, ht⟩ := pointerField_read 1
  obtain ⟨v, -, text, read, -, shallow⟩ := ofText_structured_of_ofText ht true
  have low : ∀ u ∈ (pointerField 1).trees, u.height ≤ 252 := by decide
  obtain ⟨c', hc, rfl, -⟩ := read (shallow low)
  exact ⟨t, _, ht, text, hc⟩

/-- Not every catalog that was read from a text is read from its structured text. -/
theorem not_ofText_structured_pointers :
    ¬ ∀ t c, (ofText t).result = .ok c → ∀ t', (c.toText .structured false).result = .ok t' →
      ∃ c', (ofText t').result = .ok c' ∧ c.same c' = true := by
  intro h
  obtain ⟨t, -, ht⟩ := pointerField_read 253
  obtain ⟨v, hv, deep⟩ := depth_pointerField 253
  have text : ((pointerField 253).toText .structured false).result = .ok (v.text false) := by
    rw [toText, Warned.result_bind, hv]
    rfl
  obtain ⟨f, refused, -⟩ := ofText_refused_of_depth false (show 512 < v.depth by omega)
  obtain ⟨c', read, -⟩ := h t _ ht _ text
  cases refused.symm.trans read

end Catalog

end CilCatalog
