import CilCatalog.Proofs.Document.Refused
import CilCatalog.Proofs.Document.Stable

/-!
# Texts from anywhere

Whatever octets a text has, no contract is broken in reading it, and none in writing the catalog that it describes.

* `Catalog.untrusted_text`: all of this of one text.
* `SigTree.parse_unbroken`, `Json.parse_unbroken` and `Catalog.ofText_unbroken`: the three readers end with a result or with a fault.
* `SigTree.isLeaf_eq_false_iff` and `SigTree.Parse.shape_of_wordClass`: arguments are checked only for element types that have a shape to check them by.
* `Catalog.written_of_ofText`: a catalog that was read has a partition, and a document and a text in every style.
-/

namespace CilCatalog

/-! ### Trees -/

namespace SigTree

/-- The empty text is refused as an argument, any other text for what is wrong in it. -/
theorem parse_unbroken (s : Bytes) : Unbroken (parse s) := by
  refine unbroken_iff.2 fun e he => ?_
  by_cases hs : s = []
  · subst hs
    cases he
    exact ⟨.emptyText, rfl⟩
  · obtain ⟨f, rfl, -⟩ := parse_invalid hs he
    exact ⟨f, rfl⟩

/-- An element type is one that takes arguments exactly if it has a shape to check them by. -/
theorem isLeaf_eq_false_iff (e : ElementType) : e.isLeaf = false ↔ e.shape ≠ [] := by
  cases e <;> decide

/-- Arguments are read behind the name of an element type only if there is a shape to check them by. -/
theorem Parse.shape_of_wordClass {w : Bytes} (h : wordClass w = .node) {e : ElementType}
    (he : ElementType.ofName? w = some e) : e.shape ≠ [] := by
  rw [← isLeaf_eq_false_iff, ← Bool.not_eq_true]
  intro leaf
  simp only [wordClass, he, leaf, if_true] at h
  cases h

end SigTree

/-! ### Documents and their texts -/

theorem Json.parse_unbroken (s : Bytes) : Unbroken (parse s) := (parse_reads s).unbroken

namespace Catalog

/-- A text is refused in one of three places, and in each for what it says. -/
theorem ofText_unbroken (s : Bytes) : Unbroken (ofText s).result := by
  unfold ofText
  simp only [Warned.result_bind, Warned.result_ofExcept, Warned.result_mapError]
  cases hv : Json.parse s with
  | error d =>
      obtain ⟨f, rfl, -⟩ := (Json.parse_reads s).fault hv
      exact unbroken_fault _
  | ok v =>
  rw [Failure.widen, ok_bind]
  cases hp : (Partition.ofJson v).result with
  | error d =>
      obtain ⟨f, rfl, -⟩ := (Decode.document_refuses v).fault hp
      exact unbroken_fault _
  | ok p =>
  rw [mapError_ok, ok_bind]
  cases p.toCatalog with
  | ok c => exact unbroken_ok c
  | error f => exact unbroken_fault _

/-- A catalog that was read from a text has a partition, and a document in both styles. -/
theorem written_of_ofText {s : Bytes} {c : Catalog} (h : (ofText s).result = .ok c) :
    (∃ p, (Partition.ofCatalog c : Except (Failure SigTree.FormatFault) Partition) = .ok p) ∧
      ∀ style, ∃ v, (c.toJson style).result = .ok v ∧
        ∀ pretty, (c.toText style pretty).result = .ok (v.text pretty) := by
  obtain ⟨p, durable, joined⟩ := durable_of_ofText h
  obtain ⟨p', taken, options, types, fields, methods, -⟩ :=
    Partition.holds_ofCatalog (Partition.turnsFit_of_toCatalog joined)
  have durable' := durable.of_toCatalog joined options types fields methods
  refine ⟨⟨p', taken⟩, fun style => ?_⟩
  obtain ⟨v, written, -, -⟩ := partition_roundTrips style durable'
  have document := result_toJson taken written
  refine ⟨v, document, fun pretty => ?_⟩
  rw [toText, Warned.result_bind, document]
  rfl

/-- No contract is broken by a text, whatever its octets are: the readers of trees, of JSON and of catalogs each end with a result or a fault, and a catalog that was read has a partition, and a document and a text in every style.  Nor is an argument list ever checked for an element type that takes none. -/
theorem untrusted_text (s : Bytes) :
    Unbroken (SigTree.parse s) ∧ Unbroken (Json.parse s) ∧ Unbroken (ofText s).result ∧
      (∀ c, (ofText s).result = .ok c →
        (∃ p, (Partition.ofCatalog c : Except (Failure SigTree.FormatFault) Partition) = .ok p) ∧
          ∀ style, ∃ v, (c.toJson style).result = .ok v ∧
            ∀ pretty, (c.toText style pretty).result = .ok (v.text pretty)) ∧
      (∀ w e, SigTree.Parse.wordClass w = .node → ElementType.ofName? w = some e → e.shape ≠ []) ∧
      ∀ e : ElementType, e.isLeaf = false → e.shape ≠ [] :=
  ⟨SigTree.parse_unbroken s, Json.parse_unbroken s, ofText_unbroken s, fun _ => written_of_ofText,
    fun _ _ h => SigTree.Parse.shape_of_wordClass h, fun e => (SigTree.isLeaf_eq_false_iff e).1⟩

/-- A document with one type. -/
def oneType : Bytes :=
  "\x7b\"Options\":0,\"Types\":\x7b\"References\":\x7b\"0\":\x7b\"Name\":\"T\",\"Namespace\":\"\"\x7d\x7d\x7d,\"Fields\":\x7b\x7d,\"Methods\":\x7b\x7d\x7d"

set_option maxRecDepth 4000 in
theorem untrusted_text_oneType : ∃ c v, (ofText oneType).result = .ok c ∧
    (c.toJson .structured).result = .ok v ∧
    SigTree.Parse.wordClass "Ptr" = .node ∧ ElementType.ptr.shape ≠ [] ∧
    ElementType.array.isLeaf = false ∧ ElementType.array.shape ≠ [] := by
  obtain ⟨c, hc⟩ : ∃ c, (ofText oneType).result = .ok c := ⟨_, rfl⟩
  obtain ⟨-, -, -, written, words, shapes⟩ := untrusted_text oneType
  obtain ⟨v, hv, -⟩ := (written c hc).2 .structured
  exact ⟨c, v, hc, hv, by decide, words "Ptr" .ptr (by decide) (by decide), by decide,
    shapes .array (by decide)⟩

end Catalog

end CilCatalog
