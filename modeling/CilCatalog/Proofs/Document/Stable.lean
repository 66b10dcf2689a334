import CilCatalog.Proofs.Document.Accepted
import CilCatalog.Proofs.Document.Depth
import CilCatalog.Proofs.Document.Text

/-!
# Documents settle

Whatever text a catalog is read from, its compact text gives the catalog back (`Catalog.ofText_compact_of_ofText`): what is read is durable, it turns where signed numbers of 32 bits say, and a compact document is never too deep for its reader.
-/

namespace CilCatalog

/-! ### Entities on their way through a catalog -/

/-- An entity of a durable section is durable. -/
theorem PartitionSection.Durable.of_among {ι δ : Type} {s : PartitionSection ι δ} {identity : ι → Prop}
    {data : δ → Prop} (h : s.Durable identity data) {e : Entity ι δ}
    (he : Among s.references.entries s.definitions.entries e) :
    identity e.identity ∧ ∀ d ∈ e.data?, data d := by
  cases e with
  | reference id =>
      obtain ⟨m, hm, rfl⟩ := List.mem_map.1 he
      refine ⟨h.references m hm, ?_⟩
      rintro _ ⟨⟩
  | definition id d =>
      obtain ⟨m, hm, hd⟩ := List.mem_map.1 he
      obtain ⟨hi, hdata⟩ := h.definitions m hm
      rw [hd] at hi hdata
      refine ⟨hi, ?_⟩
      rintro _ ⟨⟩
      exact hdata

/-- A section that holds what comes from a durable section is durable. -/
theorem PartitionSection.Durable.of_toMap {named : Bool} {ι δ : Type} {part : String}
    {s s' : PartitionSection ι δ} {m : TokenMap named (Entity ι δ)} {identity : ι → Prop} {data : δ → Prop}
    (h : s.Durable identity data) (joined : s.toMap part = .ok m) (holds : s'.Holds m) :
    s'.Durable identity data :=
  .of_holds holds fun e he => h.of_among ((PartitionSection.of_toMap joined).2 e he)

/-- The partition of a catalog that comes from a durable partition is durable. -/
theorem Partition.Durable.of_toCatalog {p p' : Partition} {c : Catalog} (h : p.Durable)
    (joined : p.toCatalog = .ok c) (options : p'.options = c.options) (types : p'.types.Holds c.types)
    (fields : p'.fields.Holds c.fields) (methods : p'.methods.Holds c.methods) : p'.Durable := by
  obtain ⟨ts, ht, joined⟩ := bind_eq_ok.1 joined
  obtain ⟨fs, hf, joined⟩ := bind_eq_ok.1 joined
  obtain ⟨ms, hm, joined⟩ := bind_eq_ok.1 joined
  cases joined
  exact ⟨options ▸ h.options, h.types.of_toMap ht types, h.fields.of_toMap hf fields,
    h.methods.of_toMap hm methods⟩

namespace Catalog

/-! ### Texts -/

/-- A text is read by way of a durable partition. -/
theorem durable_of_ofText {t : Bytes} {c : Catalog} (h : (ofText t).result = .ok c) :
    ∃ p : Partition, p.Durable ∧ p.toCatalog = .ok c := by
  rw [ofText, Warned.result_bind] at h
  obtain ⟨v, -, h⟩ := bind_eq_ok.1 h
  rw [Warned.result_bind, Warned.result_mapError] at h
  obtain ⟨p, hp, h⟩ := bind_eq_ok.1 h
  exact ⟨p, document_yields v p (mapError_eq_ok.1 hp), Failure.lift_eq_ok.1 h⟩

/-- A catalog whose document is read back, and not too deep, is read from its text. -/
theorem ofText_of_document {s : DocumentStyle} (pretty : Bool) {c : Catalog} {p : Partition} {v : Json}
    (taken : (Partition.ofCatalog c : Except (Failure SigTree.FormatFault) _) = .ok p)
    (joined : p.toCatalog = .ok c) (written : Encode.document (Encode.tree s) s p = .ok v)
    (solid : v.Solid) (read : (Decode.document v).result = .ok p) (depth : v.depth ≤ 512) :
    (c.toText s pretty).result = .ok (v.text pretty) ∧ (ofText (v.text pretty)).result = .ok c := by
  constructor
  · exact result_toText pretty (result_toJson taken written)
  · rw [result_ofText pretty solid depth read, joined]
    rfl

/-- A catalog that was read from a text, however that was written, has a compact text, and the catalog that is read from it is the same. -/
theorem ofText_compact_of_ofText {t : Bytes} {c : Catalog} (h : (ofText t).result = .ok c)
    (pretty : Bool) : ∃ t' c', (c.toText .compact pretty).result = .ok t' ∧
      (ofText t').result = .ok c' ∧ c' = c ∧ c.same c' = true := by
  obtain ⟨p, durable, joined⟩ := durable_of_ofText h
  obtain ⟨p', taken, options, types, fields, methods, back⟩ :=
    Partition.holds_ofCatalog (Partition.turnsFit_of_toCatalog joined)
  have durable' := durable.of_toCatalog joined options types fields methods
  obtain ⟨v, written, solid, read⟩ := partition_roundTrips .compact durable'
  have depth : v.depth ≤ 512 := (Encode.document_within written).mono (by decide)
  obtain ⟨text, again⟩ := ofText_of_document pretty taken back written solid read depth
  exact ⟨v.text pretty, c, text, again, rfl, same_self c⟩

/-- A document with members out of order, superfluous and null ones, both styles, and a slot that is too large for its type. -/
def untidy : Json :=
  let entity (k : Bytes) (ms : List (Bytes × Json)) : Bytes × Json := (k, .object [("0", .object ms)])
  .object
    [("Methods", .object [("Remark", .string "none")]),
      ("Fields", .object [entity "Definitions"
        [("Constant", .object [("Value", .int 300), ("Type", .int 4)]), ("Attributes", .int 1),
          ("Type", .object [("Token", .object [("Index", .int 0)]), ("Kind", .int 0)]),
          ("Signature", .string "Field(Int32(0),I1)"), ("Name", .string "Unit")]]),
      ("Types", .object [("Orders", .array [.int 7]), entity "References"
        [("Namespace", .string "Sample"), ("Assembly", .null), ("Name", .string "Sizes")]]),
      ("Options", .int 6)]

/-- What the document describes. -/
def tidied : Catalog :=
  ⟨⟨6⟩, ⟨[(.index 0, .reference ⟨"Sizes", "Sample", none, none⟩)], ⟨by decide, rfl⟩⟩,
    ⟨[(.index 0, .definition ⟨"Unit", .token (.index 0), .callSig 0x06 [.int32 0, .typeSig 0x04 []]⟩
        { attributes := 1, constant := some ⟨0x04, .i1 44⟩ })], ⟨by decide, rfl⟩⟩, .empty⟩

theorem ofText_compact_of_ofText_untidy : (ofText (untidy.text true)).result = .ok tidied ∧
    ∃ t' c', (tidied.toText .compact false).result = .ok t' ∧ (ofText t').result = .ok c' ∧
      c' = tidied ∧ tidied.same c' = true := by
  have parsed : Json.parse (untidy.text true) = .ok untidy := by
    refine Json.parse_text true ?_ (by decide)
    simp [untidy, Json.DistinctKeys, Json.DistinctKeysMembers, Json.DistinctKeysElements, utf8_inj]
  have read : (ofText (untidy.text true)).result = .ok tidied := by
    rw [ofText, parsed]
    rfl
  exact ⟨read, ofText_compact_of_ofText read false⟩

end Catalog

end CilCatalog
