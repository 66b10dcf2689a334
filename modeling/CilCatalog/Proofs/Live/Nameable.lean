import CilCatalog.Proofs.Live.Extends
import CilCatalog.Proofs.Live.MadeOf
import CilCatalog.Proofs.Live.SigEq

/-!
# What a module can name

A reader of a module names types of the module itself and references that end in an assembly, and members by such types.  For everything in a module to have a name, the types nested in its types must be its own as well, and members must be members of the types that list them (`Store.Housed`).  The rows in its tables and signatures must be told apart by their numbers (`Store.Tabled`).

* `Store.Nameable`, `Store.NameableField`, `Store.NameableMethod`: the rows that have names.
* `CallSig.Readable`, `CallSig.Legible`: the signatures that can be read.
* `legible_of_sigEq`: a signature that is equal to a new one can be read.
-/

namespace CilCatalog.Live

/-! ### Rows by number -/

namespace Row

/-- The number of a row that is a reference or a type specification. -/
def number? (r : Row) : Option Nat :=
  match r.key? with
  | some (.assemblyRef, n) | some (.typeRef, n) | some (.typeSpec, n) => some n
  | _ => none

/-- Whether the row is a reference to an assembly or a type. -/
def isReference (r : Row) : Bool :=
  r.kind? == some .assemblyRef || r.kind? == some .typeRef

variable {a b : Row}

theorem number?_of_same (h : a.same b = true) : a.number? = b.number? := by
  rw [number?, beq_iff_eq.1 h, number?]

theorem isReference_of_same (h : a.same b = true) : a.isReference = b.isReference := by
  rw [isReference, kind?, beq_iff_eq.1 h, isReference, kind?]

theorem eq_typeDef_of_same {t : TypeId} (h : a.same (.typeDef t) = true) : a = .typeDef t := by
  have hkey := beq_iff_eq.1 h
  cases a with
  | typeDef u =>
      obtain ⟨u⟩ := u
      obtain ⟨t⟩ := t
      cases hkey
      rfl
  | _ => cases hkey

/-- Whether the row is that of a type with a name, which a type specification is not. -/
def isNamedType : Row → Bool
  | typeDef _       => true
  | typeRef _ _ _ _ => true
  | _               => false

theorem isNull_of_isNamedType {r : Row} (h : r.isNamedType = true) : r.isNull = false := by
  cases r <;> first | rfl | exact nomatch h

theorem madeOf_of_isNamedType {P : Row → Prop} {Q : Nat → Prop} {r : Row}
    (h : r.isNamedType = true) (hr : P r) : r.MadeOf P Q := by
  cases r <;> first | exact hr | exact nomatch h

/-- What ends in an assembly goes through references only. -/
theorem isReference_of_mem_rows {k : Nat} {a : AssemblyName} {x : Row} :
    ∀ (scope : Row) {n : Nat} {ns name : Bytes},
      (Row.typeRef n ns name scope).definitionAssembly = .assemblyRef k a →
      x ∈ (Row.typeRef n ns name scope).rows → x.isReference = true
  | .assemblyRef _ _, _, _, _, _, hx => by
      rcases List.mem_cons.1 hx with rfl | hx
      · rfl
      · obtain rfl := List.mem_singleton.1 hx
        rfl
  | .typeRef _ _ _ scope, _, _, _, h, hx => by
      rcases List.mem_cons.1 hx with rfl | hx
      · rfl
      · exact isReference_of_mem_rows scope h hx
  | .null, _, _, _, h, _ | .moduleRef _ _, _, _, _, h, _ | .typeDef _, _, _, _, h, _
  | .typeSpec _ _, _, _, _, h, _ | .fieldDef _, _, _, _, h, _ | .methodDef _, _, _, _, h, _
  | .memberRef _ _ _ _, _, _, _, h, _ | .methodSpec _ _ _, _, _, _, h, _ => by cases h

end Row

namespace Store

/-! ### Modules -/

/-- The module is there and has a first type, its types and those nested in them are its own, and the members of its types say so themselves. -/
structure Housed (s : Store) (i : ImageId) : Prop where
  image : i.index < s.images.length
  global : (s.image i).types ≠ []
  tops : ∀ t ∈ (s.image i).types, s.Owns i t
  nested : ∀ {t}, s.Owns i t → ∀ n ∈ (s.typeDef t).nestedTypes, s.Owns i n
  fields : ∀ {t}, s.Owns i t → ∀ f ∈ (s.typeDef t).fields, (s.fieldDef f).declaring = some t
  methods : ∀ {t}, s.Owns i t → ∀ f ∈ (s.typeDef t).methods, (s.methodDef f).declaring = some t

/-- The rows in the tables of assembly and type references, and those inside of them. -/
def references (s : Store) (i : ImageId) : List Row :=
  ((s.image i).assemblyRefs ++ (s.image i).typeRefs).flatMap Row.rows

/-- The rows in the signatures of fields and methods. -/
def memberRows (s : Store) : List Row :=
  s.fieldDefs.flatMap (·.signature.rows) ++ s.methodDefs.flatMap (·.signature.rows)

/-- The row has a number that has been given, and is told apart from the references of the module by it. -/
structure Placed (s : Store) (i : ImageId) (x : Row) : Prop where
  number : ∀ {n}, x.number? = some n → n < s.nextRow
  apart : x.isReference = true → ∀ y ∈ s.references i, x.same y = true → x = y

/-- The tables hold references, and rows are told apart by their numbers. -/
structure Tabled (s : Store) (i : ImageId) : Prop where
  assemblies : ∀ r ∈ (s.image i).assemblyRefs, ∃ n a, r = .assemblyRef n a
  types : ∀ r ∈ (s.image i).typeRefs, ∃ n ns name scope, r = .typeRef n ns name scope
  references : ∀ x ∈ s.references i, s.Placed i x
  members : ∀ x ∈ s.memberRows, s.Placed i x

/-! ### What has a name -/

/-- The row of a type of the module, or of a type reference that ends in an assembly. -/
inductive Nameable (s : Store) (i : ImageId) : Row → Prop
  | defined {t : TypeId} (h : s.Owns i t) : Nameable s i (.typeDef t)
  | referred {n : Nat} {ns name : Bytes} {scope : Row} {k : Nat} {a : AssemblyName}
      (h : .typeRef n ns name scope ∈ (s.image i).typeRefs)
      (ha : (Row.typeRef n ns name scope).definitionAssembly = .assemblyRef k a) :
      Nameable s i (.typeRef n ns name scope)

end Store

section Readable

variable (s : Store) (i : ImageId)

/-- The row of a type with a name, or of a type specification that can be read. -/
def Row.Readable (r : Row) : Prop := r.MadeOf (s.Nameable i) fun _ => True

/-- Nothing is missing in the signature, and its types have names. -/
def TypeSig.Readable (t : TypeSig) : Prop := t.MadeOf (s.Nameable i) fun _ => True

def TypeSig.AllReadable (ts : List TypeSig) : Prop := TypeSig.AllMadeOf (s.Nameable i) (fun _ => True) ts

def CallSig.Readable (c : CallSig) : Prop := c.MadeOf (s.Nameable i) fun _ => True

/-- The signature is read as one that is readable. -/
def CallSig.Legible (c : CallSig) : Prop :=
  ∃ c' : CallSig, c'.Readable s i ∧ ∀ s', Reading.callSigTree s' c = Reading.callSigTree s' c'

end Readable

namespace Store

/-- The row of a field of the module's types, or of one that a type with a name is said to have. -/
inductive NameableField (s : Store) (i : ImageId) : Row → Prop
  | defined {f : FieldId} {t : TypeId} (hd : (s.fieldDef f).declaring = some t) (ht : s.Owns i t)
      (hs : (s.fieldDef f).signature.Legible s i) : NameableField s i (.fieldDef f)
  | referred {n : Nat} {name : Bytes} {sig : CallSig} {parent : Row} (hk : sig.isField = true)
      (hp : parent.Readable s i) (hs : sig.Readable s i) :
      NameableField s i (.memberRef n name sig parent)

/-- The row of a method of the module's types, or of one that a type with a name is said to have. -/
inductive NameableMethod (s : Store) (i : ImageId) : Row → Prop
  | defined {f : MethodId} {t : TypeId} (hd : (s.methodDef f).declaring = some t) (ht : s.Owns i t)
      (hs : (s.methodDef f).signature.Legible s i) : NameableMethod s i (.methodDef f)
  | referred {n : Nat} {name : Bytes} {sig : CallSig} {parent : Row} (hk : sig.isMethod = true)
      (hp : parent.Readable s i) (hs : sig.Readable s i) :
      NameableMethod s i (.memberRef n name sig parent)

variable {s s' : Store} {i : ImageId} {t : TypeId} {r x : Row}

theorem mem_references : x ∈ s.references i ↔
    ∃ r, (r ∈ (s.image i).assemblyRefs ∨ r ∈ (s.image i).typeRefs) ∧ x ∈ r.rows := by
  simp only [references, List.mem_flatMap, List.mem_append]

theorem Nameable.isNamedType (h : s.Nameable i r) : r.isNamedType = true := by cases h <;> rfl

theorem NameableField.isNull (h : s.NameableField i r) : r.isNull = false := by cases h <;> rfl

theorem NameableMethod.isNull (h : s.NameableMethod i r) : r.isNull = false := by cases h <;> rfl

/-- What occurs in a type that has a name, is a type definition or a reference in the tables. -/
theorem Nameable.mem_rows (h : s.Nameable i r) (hx : x ∈ r.rows) :
    (∃ t, x = .typeDef t) ∨ x ∈ s.references i ∧ x.isReference = true := by
  cases h with
  | defined h => exact .inl ⟨_, List.mem_singleton.1 hx⟩
  | referred h ha =>
      exact .inr ⟨mem_references.2 ⟨_, .inr h, hx⟩, Row.isReference_of_mem_rows _ ha hx⟩

/-- A row that a readable signature is made of has a place. -/
theorem placed_of_madeOf {Q : Nat → Prop} (h : s.Tabled i) (hQ : ∀ {n}, Q n → n < s.nextRow)
    (hx : IsPart (s.Nameable i) Q x) : s.Placed i x := by
  rcases hx with ⟨n, t, rfl, hn⟩ | ⟨r, hr, hx⟩
  · refine ⟨?_, nofun⟩
    rintro _ ⟨⟩
    exact hQ hn
  · rcases hr.mem_rows hx with ⟨t, rfl⟩ | ⟨hx, -⟩
    · exact ⟨nofun, nofun⟩
    · exact h.references x hx

/-- A signature that is equal to a new one is read as that. -/
theorem legible_of_sigEq {lo : Nat} {a b : CallSig}
    (ha : ∀ x ∈ a.rows, s.Placed i x) (old : ∀ x ∈ a.rows, ∀ {n}, x.number? = some n → n < lo)
    (hb : b.MadeOf (s.Nameable i) (lo ≤ ·)) (he : a.sigEq b = true) : a.Legible s i := by
  refine ⟨b, b.madeOf_mono id (fun _ => trivial) hb, fun s' =>
    callSigTree_of_sigEq s' a b (fun x hx y hy hs => ?_) he⟩
  rcases b.mem_rows_of_madeOf hb hy with ⟨n, t, rfl, hn⟩ | ⟨r, hr, hy⟩
  · exact absurd (old x hx (Row.number?_of_same hs)) (Nat.not_lt.2 hn)
  · rcases hr.mem_rows hy with ⟨t, rfl⟩ | ⟨hy, href⟩
    · exact Row.eq_typeDef_of_same hs
    · exact (ha x hx).apart ((Row.isReference_of_same hs).trans href) y hy hs

end Store

end CilCatalog.Live
