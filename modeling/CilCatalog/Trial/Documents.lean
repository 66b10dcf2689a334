import CilCatalog.Document.Text
import CilCatalog.Trial.Catalogs

/-!
# Trials of documents

JSON texts, and catalogs that go through them and come back.  Whether a catalog comes back from its text is decided by the trial of it for every catalog that has a text, in either style.  The malformed documents are made from sound ones by replacing a part of the text, and a part is found there exactly if it is a part.
-/

namespace CilCatalog.Trial.Documents

/-! ### JSON -/

/-- The elements of an array, if the member there is one. -/
def elementsAt (members : List (Bytes × Json)) (k : Bytes) : Option (List Json) :=
  match Json.find? members k with
  | some (.array es) => some es
  | _                => none

def parsing : Trial Unit := do
  let text := "\x7b\"a\": [1, -2, true, null], \"b\": \"x\\\"\\u00e9\\ud83d\\ude00\", \"c\": \x7b\x7d\x7d"
  let some v ← value (Json.parse text) | return
  let (isObject, members) := match v with
    | .object ms => (true, ms)
    | _          => (false, [])
  if ← check isObject ("expected an object, got " ++ utf8 v.typeName) then
    let a := elementsAt members "a"
    expect (a.any (·.length == 4)) "wrong array"
    match a with
    | some [a, b, c, d] =>
        expect (a matches .int 1) "element 0"
        expect (b matches .int (-2)) "element 1"
        expect (c matches .bool true) "element 2"
        expect (d matches .null) "element 3"
    | _ => pure ()
    let decoded := match Json.find? members "b" with
      | some (.string s) => s == utf8 "x\"é😀"
      | _                => false
    expect decoded "escapes were not decoded"
    expect (Json.find? members "c" matches some (.object _)) "empty object"
    expect (Json.find? members "d").isNone "found a member that does not exist"

def emitting : Trial Unit := do
  let v : Json := .object [
    ("s", .string "a\nb"),
    ("i", .int (-9000000000)),
    ("a", .array [.bool true, .null])]
  let compact := v.text false
  expect (compact == utf8 "\x7b\"s\":\"a\\nb\",\"i\":-9000000000,\"a\":[true,null]\x7d")
    ("compact output: " ++ compact)
  if let some again ← value (Json.parse (v.text true)) then
    expect (again.text false == compact) "pretty output does not reparse to the same value"

def malformedTexts : Trial Unit := do
  refusedAll Json.parse ["", "1.5", "[1,]", "\x7b\"a\":1,\"a\":2\x7d", "\"\\ud800\"", "[] []",
    List.replicate 1000 (octet '[')] .invalidData

/-! ### Catalogs -/

/-- The program, which can always be recorded. -/
def program (o : Options) : Trial Catalog :=
  match Sample.program o with
  | .ok c    => pure c
  | .error f => throw (some ("Failed to build sample metadata: " ++ f.message))

/-- Expects a catalog to come back from its text. -/
def comesBack (c : Catalog) (style : DocumentStyle) (pretty : Bool) : Trial Unit := do
  let some text ← value (c.toText style pretty) | return
  let some back ← value (Catalog.ofText text) | return
  sameCatalog c back

/-- A catalog with a text comes back if the text describes it. -/
theorem decides_comesBack {c : Catalog} {style : DocumentStyle} {pretty : Bool} {text : Bytes}
    {back : Except TextFault Catalog} (ht : (c.toText style pretty).result = .ok text)
    (hb : (Catalog.ofText text).result = back.mapError .fault) :
    Decides (comesBack c style pretty) ((Catalog.ofText text).result = .ok c) := by
  have htext : Comes (c.toText style pretty) (.ok text) :=
    comes_warned_failure (y := (.ok text : Except SigTree.FormatFault Bytes)) ht
  refine (decides_value (p := fun _ => (Catalog.ofText text).result = .ok c) htext
    (fun _ h => ?_) decides_pure).congr (by simp)
  cases h
  refine (decides_value (p := (c = ·)) (comes_warned_failure hb)
    (fun d _ => decides_sameCatalog c d) decides_pure).congr ?_
  simp [hb, mapError_eq_ok]

def roundTrips : Trial Unit := do
  for o in [Options.default, Options.all] do
    let c ← program o
    comesBack c .structured true
    comesBack c .compact false

/-- The bits of a constant of 32-bit floating-point type. -/
def singleBits (e : FieldEntity) : Nat :=
  match e.data?.bind FieldData.constant with
  | some ⟨_, .r4 bits⟩ => bits.toNat
  | _                  => 0

/-- The bits of the number that a body pushes first. -/
def doubleBits (e : MethodEntity) : Nat :=
  match (e.data?.bind MethodData.body).map MethodBody.instructions with
  | some (⟨_, some (.double bits)⟩ :: _) => bits.toNat
  | _                                    => 0

def payloads : Trial Unit := do
  let c ← program .default
  let some text ← value (c.toText .structured false) | return
  let some back ← value (Catalog.ofText text) | return
  if let some e ← value (back.fields.get (.index 0)) then
    expect (singleBits e == 0x7FC01234)
      ("float constant changed to 0x" ++ Bytes.hexadecimal (singleBits e))
  if let some e ← value (back.methods.get (.index 0)) then
    expect (doubleBits e == 0x7FF8000000001234)
      ("double operand changed to 0x" ++ Bytes.hexadecimal (doubleBits e))

/-- The text with the first occurrence of a part replaced. -/
def replaceFirst? (old new : Bytes) : Bytes → Option Bytes
  | []     => none
  | b :: t =>
      if old.isPrefixOf (b :: t) then some (new ++ (b :: t).drop old.length)
      else (replaceFirst? old new t).map (b :: ·)

/-- A signature as it stands in a compact document. -/
def classText : Bytes := "\"Class(0)\""

/-- The same signature with its end missing. -/
def brokenClassText : Bytes := "\"Class(0\""

/-- A signature as it stands in a structured document. -/
def floatText : Bytes := "\x7b\"Kind\":1,\"Type\":12\x7d"

/-- The node of a pointer without the type that it is to. -/
def pointerText : Bytes := "\x7b\"Kind\":1,\"Type\":15\x7d"

/-- What is replaced is a part of the text, and what stands before and behind it stays. -/
theorem replaceFirst?_eq_some {old new text out : Bytes} (h : replaceFirst? old new text = some out) :
    ∃ front back, text = front ++ old ++ back ∧ out = front ++ new ++ back := by
  induction text generalizing out with
  | nil => exact nomatch h
  | cons b t ih =>
      rw [replaceFirst?] at h
      split at h
      · next hp =>
          obtain ⟨back, hback⟩ := List.isPrefixOf_iff_prefix.1 hp
          cases h
          exact ⟨[], back, hback.symm, by simp [← hback]⟩
      · obtain ⟨out', ho, rfl⟩ := Option.map_eq_some_iff.1 h
        obtain ⟨front, back, rfl, rfl⟩ := ih ho
        exact ⟨b :: front, back, rfl, rfl⟩

/-- Whether one text occurs in another. -/
def occurs (part text : Bytes) : Bool := (replaceFirst? part [] text).isSome

/-- A text that is not empty occurs where it is a part. -/
theorem occurs_iff {part text : Bytes} (hp : part ≠ []) : occurs part text = true ↔ part <:+: text := by
  rw [occurs, Option.isSome_iff_exists]
  constructor
  · rintro ⟨out, h⟩
    obtain ⟨front, back, rfl, -⟩ := replaceFirst?_eq_some h
    exact ⟨front, back, rfl⟩
  · rintro ⟨front, back, rfl⟩
    induction front with
    | nil =>
        obtain ⟨b, t, hbt⟩ := List.exists_cons_of_ne_nil hp
        subst hbt
        simp [replaceFirst?, List.isPrefixOf_iff_prefix]
    | cons b front ih =>
        obtain ⟨out, h⟩ := ih
        simp only [List.cons_append, replaceFirst?]
        split
        · exact ⟨_, rfl⟩
        · exact ⟨b :: out, by simpa using h⟩

def styles : Trial Unit := do
  let c ← program .default
  let some text ← value (c.toText .compact false) | return
  expect (occurs classText text) ("compact text has no signature string: " ++ text)
  if let some structured ← value (c.toText .structured false) then
    expect (!occurs classText structured) "structured text has a signature string"

/-- Every section of a document must be there, and every signature must be sound in either style. -/
def malformedDocuments : Trial Unit := do
  refusedAll Catalog.ofText ["[]",
    "\x7b\"Options\": 0\x7d",
    "\x7b\"Options\": 99, \"Types\": \x7b\x7d, \"Fields\": \x7b\x7d, \"Methods\": \x7b\x7d\x7d",
    "\x7b\"Options\": 0, \"Types\": \x7b\x7d, \"Fields\": \x7b\x7d\x7d",
    "\x7b\"Options\": 0, \"Fields\": \x7b\x7d, \"Methods\": \x7b\x7d\x7d"] .invalidData
  let text :=
    "\x7b\"Options\": 0, \"Types\": \x7b\x7d, \"Fields\": \x7b\x7d, \"Methods\": \x7b\x7d\x7d"
  if let some empty ← value (Catalog.ofText text) then
    expect (empty.types.size == 0) "empty document has types"
  let c ← program .default
  let some text ← value (c.toText .compact false) | return
  let broken := replaceFirst? classText brokenClassText text
  if ← check broken.isSome "no signature to break" then
    refused (Catalog.ofText (broken.getD [])) .invalidData
    let some text ← value (c.toText .structured false) | return
    let broken := replaceFirst? floatText pointerText text
    if ← check broken.isSome ("no R4 signature in " ++ text) then
      refused (Catalog.ofText (broken.getD [])) .invalidData

/-- All of these. -/
def suite : TrialSuite := [
  ⟨"Parse JSON", parsing⟩,
  ⟨"Emit JSON", emitting⟩,
  ⟨"Malformed JSON", malformedTexts⟩,
  ⟨"Metadata round trip", roundTrips⟩,
  ⟨"NaN fidelity", payloads⟩,
  ⟨"Compact encoding", styles⟩,
  ⟨"Malformed documents", malformedDocuments⟩]

end CilCatalog.Trial.Documents
