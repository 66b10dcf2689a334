import CilCatalog.Proofs.Copying.Names
import CilCatalog.Proofs.Live.SigEq
import CilCatalog.Proofs.Live.Store
import CilCatalog.Proofs.Writing.Memory
import CilCatalog.Writing.Entity

/-!
# What holds while a copy is written

The state of a writer at work on a copy says of every identity which row stands for it, and of everything that has been defined that reading it follows reading the original.

* `Copy.Ground`: the store is in order.
* `Copy.Listed`: everything in the lists of the copy's types is remembered.
* `Copy.Remembered`: the rows that are remembered stand for their identities.
* `Copy.Copied`: what has been defined is as in the module.
* `Copy.Faithful`: all of these.
-/

namespace CilCatalog

open Live

namespace Copy

variable (C : Copy)

/-! ### The store -/

/-- The references of the copy's module to assemblies and to their types. -/
def refs (σ : Store) : List Row := (σ.image C.image).assemblyRefs ++ (σ.image C.image).typeRefs

/-- The tables of references are made of rows with numbers of their own, and hold the rows inside of their rows. -/
structure Tables (σ : Store) : Prop where
  assemblies : ∀ r ∈ (σ.image C.image).assemblyRefs,
    ∃ n a, r = .assemblyRef n a ∧ a.IsPlain ∧ n < σ.nextRow
  types : ∀ r ∈ (σ.image C.image).typeRefs,
    ∃ n ns name scope, r = .typeRef n ns name scope ∧ n < σ.nextRow
  closed : ∀ r ∈ C.refs σ, ∀ x ∈ r.rows, x ∈ C.refs σ
  apart : ∀ r ∈ C.refs σ, ∀ r' ∈ C.refs σ, r.same r' = true → r = r'

/-- A row inside a signature of the copy, made as row number `lo` or later. -/
def MadeRow (σ : Store) (lo : Nat) (r : Row) : Prop :=
  (∃ t, r = .typeDef t) ∨ r ∈ C.refs σ ∨ ∃ n t, r = .typeSpec n t ∧ lo ≤ n ∧ n < σ.nextRow

/-- Rows inside a signature of the copy. -/
def Made (σ : Store) (lo : Nat) (rs : List Row) : Prop := ∀ r ∈ rs, C.MadeRow σ lo r

/-- The store is in order: the types of the copy are made from outside to inside, their lists hold what says so itself, and the references are told apart by their numbers. -/
structure Ground (σ : Store) : Prop where
  image : C.image.index < σ.images.length
  layered : σ.Layered C.base C.image
  base : C.base < σ.typeDefs.length
  global : ∃ ts, (σ.image C.image).types = ⟨C.base⟩ :: ts
  globalName : (σ.typeDef ⟨C.base⟩).name = Live.globalTypeName ∧ (σ.typeDef ⟨C.base⟩).ns = [] ∧
    (σ.typeDef ⟨C.base⟩).declaring = none
  tops : ∀ t ∈ (σ.image C.image).types, σ.TypeIn C.base t ∧ (σ.typeDef t).declaring = none
  nested : ∀ {t n}, σ.TypeIn C.base t → n ∈ (σ.typeDef t).nestedTypes →
    σ.TypeIn C.base n ∧ (σ.typeDef n).declaring = some t
  fields : ∀ {t f}, σ.TypeIn C.base t → f ∈ (σ.typeDef t).fields →
    f.index < σ.fieldDefs.length ∧ (σ.fieldDef f).declaring = some t ∧
      C.Made σ 0 (σ.fieldDef f).signature.rows
  methods : ∀ {t f}, σ.TypeIn C.base t → f ∈ (σ.typeDef t).methods →
    f.index < σ.methodDefs.length ∧ (σ.methodDef f).declaring = some t ∧
      C.Made σ 0 (σ.methodDef f).signature.rows
  tables : C.Tables σ

/-! ### Where members come from -/

/-- Where the identity of a field is read from. -/
inductive FieldSource : Reading MemberIdentity → Prop where
  | defined (f : FieldId) : FieldSource (Reading.fieldIdentity C.source.store f)
  | referred (n : Nat) (name : Bytes) (sig : CallSig) (parent : Row)
      (hr : C.source.Has (Row.memberRef n name sig parent).rows) :
      FieldSource (Reading.memberIdentity C.source.store name parent sig)

/-- Where the identity of a method is read from. -/
inductive MethodSource : Reading MemberIdentity → Prop where
  | defined (f : MethodId) : MethodSource (Reading.methodIdentity C.source.store f)
  | referred (n : Nat) (name : Bytes) (sig : CallSig) (parent : Row)
      (hr : C.source.Has (Row.memberRef n name sig parent).rows) :
      MethodSource (Reading.memberIdentity C.source.store name parent sig)

/-- A declaring type and a signature of the module that the identity of a member has been read from. -/
structure ReadFrom (id : MemberIdentity) (type : Row) (sig : CallSig) : Prop where
  plainType : C.source.Plain type.rows
  plainSig : C.source.Plain sig.rows
  type : Read C.source C.reader (Reading.typeTree C.source.store type) id.type
  sig : Read C.source C.reader (Reading.callSigTree C.source.store sig) id.signature

/-- Something that has been read is the identity of a field. -/
structure IsField (id : MemberIdentity) : Prop where
  source : ∃ c, C.FieldSource c ∧ Read C.source C.reader c id
  kind : ∀ {type sig}, C.ReadFrom id type sig → sig.isField = true

/-- Something that has been read is the identity of a method. -/
structure IsMethod (id : MemberIdentity) : Prop where
  source : ∃ c, C.MethodSource c ∧ Read C.source C.reader c id
  kind : ∀ {type sig}, C.ReadFrom id type sig → sig.isMethod = true

/-- The reading follows every reading of the identity. -/
def Renders (σ : Store) (id : MemberIdentity) (y : Store → Reading MemberIdentity) : Prop :=
  ∀ type sig, C.ReadFrom id type sig →
    C.Echo σ (Reading.memberIdentity C.source.store id.name type sig) y

/-- The row of a field of the copy is read as the identity. -/
inductive FieldStands (σ : Store) (id : MemberIdentity) : Row → Prop where
  | defined (f : FieldId) (t : TypeId) (hf : f.index < σ.fieldDefs.length)
      (ht : σ.TypeIn C.base t) (hd : (σ.fieldDef f).declaring = some t)
      (hm : C.Made σ 0 (σ.fieldDef f).signature.rows)
      (h : C.Renders σ id (Reading.fieldIdentity · f)) : FieldStands σ id (.fieldDef f)
  | referred (n : Nat) (sig : CallSig) (parent : Row) (hs : sig.isField = true)
      (hp : parent.isType = true)
      (h : C.Renders σ id (Reading.memberIdentity · id.name parent sig)) :
      FieldStands σ id (.memberRef n id.name sig parent)

/-- The row of a method of the copy is read as the identity. -/
inductive MethodStands (σ : Store) (id : MemberIdentity) : Row → Prop where
  | defined (f : MethodId) (t : TypeId) (hf : f.index < σ.methodDefs.length)
      (ht : σ.TypeIn C.base t) (hd : (σ.methodDef f).declaring = some t)
      (hm : C.Made σ 0 (σ.methodDef f).signature.rows)
      (h : C.Renders σ id (Reading.methodIdentity · f)) : MethodStands σ id (.methodDef f)
  | referred (n : Nat) (sig : CallSig) (parent : Row) (hs : sig.isMethod = true)
      (hp : parent.isType = true)
      (h : C.Renders σ id (Reading.memberIdentity · id.name parent sig)) :
      MethodStands σ id (.memberRef n id.name sig parent)

/-! ### What is remembered -/

variable {C}

/-- A type of the copy is remembered. -/
def TypeListed (w : WriteState) (n : TypeId) : Prop :=
  ∃ id r, Normal id ∧ w.writer.types.find? id = some r ∧ r.row = .typeDef n

def FieldListed (w : WriteState) (f : FieldId) : Prop :=
  ∃ id r, w.writer.fields.find? id = some r ∧ r.row = .fieldDef f

def MethodListed (w : WriteState) (f : MethodId) : Prop :=
  ∃ id r, w.writer.methods.find? id = some r ∧ r.row = .methodDef f

variable (C)

/-- Whatever the lists of the types hold is remembered, but for what is still pending. -/
structure Listed (pending : Row) (w : WriteState) : Prop where
  types : ∀ {t n}, w.store.TypeIn C.base t → n ∈ (w.store.typeDef t).nestedTypes →
    pending = .typeDef n ∨ TypeListed w n
  fields : ∀ {t f}, w.store.TypeIn C.base t → f ∈ (w.store.typeDef t).fields →
    pending = .fieldDef f ∨ FieldListed w f
  methods : ∀ {t f}, w.store.TypeIn C.base t → f ∈ (w.store.typeDef t).methods →
    pending = .methodDef f ∨ MethodListed w f

/-- A row of the copy stands for the type, and is a definition of the copy or among its references. -/
structure TypeStands (σ : Store) (id : TypeIdentity) (r : Row) : Prop where
  known : C.Known id
  stands : C.Stands σ r id
  inside : ∀ {t}, r = .typeDef t → σ.TypeIn C.base t
  listed : ∀ {n ns name scope}, r = .typeRef n ns name scope → r ∈ (σ.image C.image).typeRefs

/-- The rows that are remembered stand for their identities. -/
structure Remembered (w : WriteState) : Prop where
  normal : w.writer.types.IsNormal
  types : ∀ {id r}, Normal id → w.writer.types.find? id = some r → C.TypeStands w.store id r.row
  assemblies : ∀ {label r}, w.writer.assemblies.lookup label = some r →
    ∃ n a, r = .assemblyRef n a ∧ r ∈ (w.store.image C.image).assemblyRefs ∧
      assemblyLabel C.source.options a = label
  fields : ∀ {id r}, w.writer.fields.find? id = some r →
    C.IsField id ∧ C.FieldStands w.store id r.row
  methods : ∀ {id r}, w.writer.methods.find? id = some r →
    C.IsMethod id ∧ C.MethodStands w.store id r.row

/-! ### What has been defined -/

/-- A type of the copy is remembered as that of the module, and written at the level. -/
def TypeWritten (w : WriteState) (level : Level) (t n : TypeId) : Prop :=
  ∃ r, w.writer.types.find? (Reading.definitionIdentity C.source.store t) = some r ∧
    r.row = .typeDef n ∧ level ≤ r.level

/-- A field of the copy is remembered as that of the module, and defined. -/
def FieldWritten (w : WriteState) (f g : FieldId) : Prop :=
  ∃ id r, Read C.source C.reader (Reading.fieldIdentity C.source.store f) id ∧
    w.writer.fields.find? id = some r ∧ r.row = .fieldDef g ∧ .definition ≤ r.level

def MethodWritten (w : WriteState) (f g : MethodId) : Prop :=
  ∃ id r, Read C.source C.reader (Reading.methodIdentity C.source.store f) id ∧
    w.writer.methods.find? id = some r ∧ r.row = .methodDef g ∧ .definition ≤ r.level

/-- A list that starts with one that is related to `as`, and goes on with something else. -/
def StartsWith {α : Type} (R : α → α → Prop) (as bs : List α) : Prop :=
  ∃ cs ds, bs = cs ++ ds ∧ (∀ d ∈ ds, d ∉ cs) ∧ List.Forall₂ R as cs

/-- The nested types of a type of the copy are those of the type of the module, with others behind at most. -/
def NestedCopied (w : WriteState) (t n : TypeId) : Prop :=
  StartsWith (C.TypeWritten w .withChildren) (C.source.store.typeDef t).nestedTypes
    (w.store.typeDef n).nestedTypes

def FieldsCopied (w : WriteState) (t n : TypeId) : Prop :=
  StartsWith (C.FieldWritten w) (C.source.store.typeDef t).fields (w.store.typeDef n).fields

def MethodsCopied (w : WriteState) (t n : TypeId) : Prop :=
  StartsWith (C.MethodWritten w) (C.source.store.typeDef t).methods (w.store.typeDef n).methods

/-- The properties of a type of the copy are read as those of the type of the module. -/
def PropertiesCopied (w : WriteState) (t n : TypeId) : Prop :=
  List.Forall₂ (fun p q => C.Echo w.store (Reading.property C.source.store p)
    (Reading.property · q)) (C.source.store.typeDef t).properties (w.store.typeDef n).properties

def EventsCopied (w : WriteState) (t n : TypeId) : Prop :=
  List.Forall₂ (fun p q => C.Echo w.store (Reading.event C.source.store p)
    (Reading.event · q)) (C.source.store.typeDef t).events (w.store.typeDef n).events

/-- The children of a type of the copy are those of the type of the module. -/
structure ChildrenCopied (w : WriteState) (t n : TypeId) : Prop where
  nested : C.NestedCopied w t n
  fields : C.FieldsCopied w t n
  methods : C.MethodsCopied w t n
  properties : C.PropertiesCopied w t n
  events : C.EventsCopied w t n

/-- What has been defined is read as what it has been defined by. -/
structure Copied (w : WriteState) : Prop where
  types : ∀ {t n}, C.source.store.Owns C.source.image t →
    C.TypeWritten w .definition t n →
    C.Echo w.store (Reading.typeData C.source.store (C.source.store.typeDef t))
      (Reading.typeData · (w.store.typeDef n))
  children : ∀ {t n}, C.source.store.Owns C.source.image t →
    C.TypeWritten w .withChildren t n → C.ChildrenCopied w t n
  fields : ∀ {id r g k d}, w.writer.fields.find? id = some r → r.row = .fieldDef g →
    .definition ≤ r.level → C.catalog.fields.get? k = some (.definition id d) →
    ∀ f, C.source.Has (C.source.store.fieldDef f).rows →
      Read C.source C.reader (Reading.fieldData C.source.store (C.source.store.fieldDef f)) d →
      C.Echo w.store (Reading.fieldData C.source.store (C.source.store.fieldDef f))
        (Reading.fieldData · (w.store.fieldDef g))
  methods : ∀ {id r g k d}, w.writer.methods.find? id = some r → r.row = .methodDef g →
    .definition ≤ r.level → C.catalog.methods.get? k = some (.definition id d) →
    ∀ f, C.source.Has (C.source.store.methodDef f).rows →
      Read C.source C.reader (Reading.methodData C.source.store (C.source.store.methodDef f)) d →
      C.Echo w.store (Reading.methodData C.source.store (C.source.store.methodDef f))
        (Reading.methodData · (w.store.methodDef g))
  /-- A method has a body only if it has one in the catalog. -/
  bodies : ∀ {id r g k d}, w.writer.methods.find? id = some r → r.row = .methodDef g →
    C.catalog.methods.get? k = some (.definition id d) → d.body = none →
    (w.store.methodDef g).body = none

/-- The state of a writer at work on a copy, with a row that has been made and not yet been remembered. -/
structure Faithful (pending : Row) (w : WriteState) : Prop where
  image : w.writer.image = C.image
  hooks : w.writer.hooks = ⟨none, none⟩
  ground : C.Ground w.store
  listed : C.Listed pending w
  remembered : C.Remembered w
  copied : C.Copied w

end Copy

end CilCatalog
