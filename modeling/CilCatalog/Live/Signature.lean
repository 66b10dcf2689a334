import CilCatalog.CallingConvention
import CilCatalog.ElementType
import CilCatalog.Failure
import CilCatalog.Live.AssemblyName

/-!
# Rows and signatures of a live module

A live module consists of rows.  Types, fields and methods that the module defines are kept in a store and known here by their numbers; every other row is a value, made once and never changed, and carries a number that tells it from rows with the same contents.  Signatures are values throughout.  Wherever a row or signature is due there may be none, which is `null`.
-/

namespace CilCatalog.Live

/-! ### Numbers -/

/-- The number of a module. -/
structure ImageId where
  index : Nat
deriving DecidableEq, Repr, Inhabited

/-- The number of a type definition. -/
structure TypeId where
  index : Nat
deriving DecidableEq, Repr, Inhabited

/-- The number of a field definition. -/
structure FieldId where
  index : Nat
deriving DecidableEq, Repr, Inhabited

/-- The number of a method definition. -/
structure MethodId where
  index : Nat
deriving DecidableEq, Repr, Inhabited

/-! ### Kinds -/

/-- The kinds of row. -/
inductive RowKind where
  | assemblyRef | moduleRef | typeDef | typeRef | typeSpec | fieldDef | methodDef | memberRef
  | methodSpec
deriving DecidableEq, Repr

namespace RowKind

def name : RowKind → String
  | assemblyRef => "AssemblyRef"
  | moduleRef   => "ModuleRef"
  | typeDef     => "TypeDef"
  | typeRef     => "TypeRef"
  | typeSpec    => "TypeSpec"
  | fieldDef    => "FieldDef"
  | methodDef   => "MethodDef"
  | memberRef   => "MemberRef"
  | methodSpec  => "MethodSpec"

/-- All kinds of row, by code. -/
def all : List RowKind :=
  [assemblyRef, moduleRef, typeDef, typeRef, typeSpec, fieldDef, methodDef, memberRef, methodSpec]

/-- The name of row kind number `n`; a number without a kind has a name of its own. -/
def nameOfCode (n : Nat) : String := ((all[n]?).map name).getD "<invalid>"

end RowKind

/-- The element types that put something around one other signature. -/
inductive Wrapper where
  | ptr | byRef | szArray | pinned
deriving DecidableEq, Repr

namespace Wrapper

def elementType : Wrapper → ElementType
  | ptr     => .ptr
  | byRef   => .byRef
  | szArray => .szArray
  | pinned  => .pinned

def ofElementType? : ElementType → Option Wrapper
  | .ptr     => some ptr
  | .byRef   => some byRef
  | .szArray => some szArray
  | .pinned  => some pinned
  | _        => none

theorem ofElementType?_elementType (w : Wrapper) : ofElementType? w.elementType = some w := by
  cases w <;> rfl

end Wrapper

/-! ### Rows and signatures -/

mutual

/-- A row of a module's tables. -/
inductive Row where
  | null
  | assemblyRef (id : Nat) (name : AssemblyName)
  | moduleRef (id : Nat) (name : Bytes)
  | typeDef (id : TypeId)
  /-- A type defined elsewhere: in an assembly, in another module, or inside another such type. -/
  | typeRef (id : Nat) (ns name : Bytes) (scope : Row)
  | typeSpec (id : Nat) (signature : TypeSig)
  | fieldDef (id : FieldId)
  | methodDef (id : MethodId)
  | memberRef (id : Nat) (name : Bytes) (signature : CallSig) (parent : Row)
  | methodSpec (id : Nat) (method : Row) (instantiation : CallSig)

/-- The signature of a type. -/
inductive TypeSig where
  | null
  | leaf (e : ElementType) (isLeaf : e.isLeaf = true)
  | wrapper (w : Wrapper) (next : TypeSig)
  | fnPtr (signature : CallSig)
  /-- A class, or a value type, by its row. -/
  | named (byValue : Bool) (type : Row)
  /-- A type parameter of the type, or of the method. -/
  | generic (ofMethod : Bool) (number : UInt32)
  | array (next : TypeSig) (rank : UInt32) (sizes : List UInt32) (lowerBounds : List Int32)
  | genericInst (type : TypeSig) (args : List TypeSig)
  | valueArray (next : TypeSig) (size : UInt32)
  /-- A signature behind a required, or an optional, modifier. -/
  | modifier (required : Bool) (type : Row) (next : TypeSig)
  | module (index : UInt32) (next : TypeSig)

/-- A signature with a calling convention. -/
inductive CallSig where
  | null
  /-- A method or property, which one the low bits of `raw` say; the parameters of a call with variable arguments are in two lists.  The flags of a property may touch the low bits, so that these say something else or nothing. -/
  | method (raw : UInt8) (isMethodOrProperty : CallingConvention.isMethodOrPropertyRaw raw = true)
      (genericCount : UInt32) (ret : TypeSig) (params after : List TypeSig)
  | field (type : TypeSig)
  | locals (types : List TypeSig)
  | inst (types : List TypeSig)

end

instance : Inhabited Row := ⟨.null⟩

instance : Inhabited TypeSig := ⟨.null⟩

instance : Inhabited CallSig := ⟨.null⟩

/-! ### Being asked for a kind -/

/-- There is nothing whose kind could be asked for. -/
def nothingToAsk {φ : Type} : Failure φ := .breach "Cannot perform dynamic cast from null"

/-- What there is, is not of the kind that is due. -/
def unexpectedKind {φ : Type} : Failure φ := .breach "Unexpected dynamic type"

/-- What there is, is taken for something else, and what then comes of it is not defined. -/
def mistaken {φ : Type} : Failure φ := .breach "Not the signature that it passes for"

namespace Row

def isNull : Row → Bool
  | null => true
  | _    => false

/-- The kind and number that tell a row from every other. -/
def key? : Row → Option (RowKind × Nat)
  | null               => none
  | assemblyRef id _   => some (.assemblyRef, id)
  | moduleRef id _     => some (.moduleRef, id)
  | typeDef id         => some (.typeDef, id.index)
  | typeRef id _ _ _   => some (.typeRef, id)
  | typeSpec id _      => some (.typeSpec, id)
  | fieldDef id        => some (.fieldDef, id.index)
  | methodDef id       => some (.methodDef, id.index)
  | memberRef id _ _ _ => some (.memberRef, id)
  | methodSpec id _ _  => some (.methodSpec, id)

def kind? (r : Row) : Option RowKind := r.key?.map Prod.fst

/-- The name of a row's kind. -/
def kindName (r : Row) : String := (r.kind?.map RowKind.name).getD ""

/-- Whether two rows are one. -/
def same (a b : Row) : Bool := a.key? == b.key?

/-- Whether the row is a type definition, a type reference or a type specification. -/
def isType : Row → Bool
  | typeDef _       => true
  | typeRef _ _ _ _ => true
  | typeSpec _ _    => true
  | _               => false

/-- A row that must be of one of the given kinds, if there is one. -/
def expect {φ : Type} (kinds : List RowKind) (r : Row) : Except (Failure φ) Row :=
  match r.kind? with
  | none   => .ok r
  | some k => if k ∈ kinds then .ok r else .error unexpectedKind

/-- A row that must be a type definition, if there is one. -/
def toTypeDef {φ : Type} : Row → Except (Failure φ) (Option TypeId)
  | null      => .ok none
  | typeDef t => .ok (some t)
  | _         => .error unexpectedKind

/-- A row that must be a field definition, if there is one. -/
def toFieldDef {φ : Type} : Row → Except (Failure φ) (Option FieldId)
  | null       => .ok none
  | fieldDef f => .ok (some f)
  | _          => .error unexpectedKind

/-- A row that must be a method definition, if there is one. -/
def toMethodDef {φ : Type} : Row → Except (Failure φ) (Option MethodId)
  | null        => .ok none
  | methodDef m => .ok (some m)
  | _           => .error unexpectedKind

/-- A row that must be a type specification, if there is one. -/
def toTypeSpec {φ : Type} : Row → Except (Failure φ) (Option TypeSig)
  | null         => .ok none
  | typeSpec _ t => .ok (some t)
  | _            => .error unexpectedKind

/-- The assembly at the end of the scopes of a type reference. -/
def definitionAssembly : Row → Row
  | typeRef _ _ _ (assemblyRef id n) => assemblyRef id n
  | typeRef _ _ _ scope              => definitionAssembly scope
  | _                                => null

end Row

namespace CallSig

/-- Calling convention and flags in one octet. -/
def raw : CallSig → UInt8
  | null               => 0
  | method r _ _ _ _ _ => r
  | field _            => CallingConvention.field.code
  | locals _           => CallingConvention.localSig.code
  | inst _             => CallingConvention.genericInst.code

/-- Whether this is a property signature. -/
def isProperty : CallSig → Bool
  | method r _ _ _ _ _ => CallingConvention.ofRaw? r == some .property
  | _                  => false

/-- Whether this is a method signature. -/
def isMethod : CallSig → Bool
  | method r _ _ _ _ _ =>
      CallingConvention.isMethodLikeRaw r && CallingConvention.ofRaw? r != some .property
  | _                  => false

def isField : CallSig → Bool
  | field _ => true
  | _       => false

def isLocals : CallSig → Bool
  | locals _ => true
  | _        => false

def isInst : CallSig → Bool
  | inst _ => true
  | _      => false

def isNull : CallSig → Bool
  | null => true
  | _    => false

/-- A signature that must be of a certain kind, if there is one. -/
def expect {φ : Type} (isKind : CallSig → Bool) (c : CallSig) : Except (Failure φ) CallSig :=
  if c.isNull || isKind c then .ok c else .error unexpectedKind

/-- Whether a member with this signature is a field; there must be a signature. -/
def ofFieldMember {φ : Type} (c : CallSig) : Except (Failure φ) Bool :=
  if c.isNull then .error nothingToAsk else .ok c.isField

/-- Whether a member with this signature is a method or a property; there must be a signature. -/
def ofMethodMember {φ : Type} (c : CallSig) : Except (Failure φ) Bool :=
  if c.isNull then .error nothingToAsk else .ok (c.isMethod || c.isProperty)

/-- A method signature; the calling convention must be one of methods. -/
def ofMethod {φ : Type} (raw : UInt8) (genericCount : UInt32) (ret : TypeSig)
    (params after : List TypeSig) : Except (Failure φ) CallSig :=
  let k := CallingConvention.ofRaw? raw
  if h : CallingConvention.isMethodLikeRaw raw = true ∧ k ≠ some .property then
    .ok (method raw (CallingConvention.isMethodOrPropertyRaw_of_isMethodLikeRaw h.1) genericCount
      ret params after)
  else
    let name := (k.map CallingConvention.name).getD ""
    .error (.breach ("'" ++ name ++ "' is not a method calling convention"))

/-- A property signature.  Nothing keeps the flags from touching the calling convention. -/
def ofProperty (flags : UInt8) (genericCount : UInt32) (ret : TypeSig)
    (params after : List TypeSig) : CallSig :=
  method (CallingConvention.property.code ||| flags)
    (CallingConvention.isMethodOrPropertyRaw_property_or flags) genericCount ret params after

/-- A property signature whose flags make its convention that of the type arguments of a method. -/
def Mistakable : CallSig → Prop
  | method r _ _ _ _ _ => CallingConvention.ofRaw? r = some .genericInst
  | _                  => False

end CallSig

namespace TypeSig

/-- The signature of a leaf type. -/
def ofLeaf {φ : Type} (e : ElementType) : Except (Failure φ) TypeSig :=
  if h : e.isLeaf = true then .ok (leaf e h)
  else .error (.breach ("'" ++ e.name ++ "' is not a leaf element type"))

/-- The signature of the leaf type with the given code. -/
def ofLeafCode {φ : Type} (code : UInt8) : Except (Failure φ) TypeSig :=
  match ElementType.ofCode? code with
  | some e => ofLeaf e
  | none   => .error (.breach "'' is not a leaf element type")

/-- The signature of an element type that wraps another one. -/
def ofWrapper {φ : Type} (e : ElementType) (next : TypeSig) : Except (Failure φ) TypeSig :=
  match Wrapper.ofElementType? e with
  | some w => .ok (wrapper w next)
  | none   => .error (.breach ("'" ++ e.name ++ "' is not a wrapper element type"))

/-- The signature of a class or value type. -/
def ofNamed {φ : Type} (e : ElementType) (type : Row) : Except (Failure φ) TypeSig :=
  match e with
  | .cls       => .ok (named false type)
  | .valueType => .ok (named true type)
  | _          => .error .unexplained

/-- The signature of a type parameter. -/
def ofGeneric {φ : Type} (e : ElementType) (number : UInt32) : Except (Failure φ) TypeSig :=
  match e with
  | .var  => .ok (generic false number)
  | .mvar => .ok (generic true number)
  | _     => .error .unexplained

/-- The signature behind a modifier. -/
def ofModifier {φ : Type} (e : ElementType) (type : Row) (next : TypeSig) :
    Except (Failure φ) TypeSig :=
  match e with
  | .cmodReqd => .ok (modifier true type next)
  | .cmodOpt  => .ok (modifier false type next)
  | _         => .error .unexplained

def isNull : TypeSig → Bool
  | null => true
  | _    => false

end TypeSig

/-! ### Equality of signatures

Types are compared as rows, except that type specifications are compared by what they specify. -/

mutual

def Row.sigEq : Row → Row → Bool
  | .typeSpec i s, .typeSpec j t => i == j || s.sigEq t
  | a,             b             => a.same b

def TypeSig.sigEq : TypeSig → TypeSig → Bool
  | .null,              .null              => true
  | .leaf e _,          .leaf f _          => e == f
  | .wrapper v s,       .wrapper w t       => v == w && s.sigEq t
  | .fnPtr s,           .fnPtr t           => s.sigEq t
  | .named v a,         .named w b         => v == w && a.sigEq b
  | .generic v m,       .generic w n       => v == w && m == n
  | .array s q ms ls,   .array t r ns ks   => q == r && ms == ns && ls == ks && s.sigEq t
  | .genericInst s as,  .genericInst t bs  => s.sigEq t && TypeSig.sigEqList as bs
  | .valueArray s m,    .valueArray t n    => m == n && s.sigEq t
  | .modifier v a s,    .modifier w b t    => v == w && a.sigEq b && s.sigEq t
  | .module m s,        .module n t        => m == n && s.sigEq t
  | _,                  _                  => false

def TypeSig.sigEqList : List TypeSig → List TypeSig → Bool
  | [],      []      => true
  | a :: as, b :: bs => a.sigEq b && TypeSig.sigEqList as bs
  | _,       _       => false

def CallSig.sigEq : CallSig → CallSig → Bool
  | .null,              .null              => true
  | .method q _ m r ps vs, .method s _ n t us ws =>
      q == s && m == n && r.sigEq t && TypeSig.sigEqList ps us && TypeSig.sigEqList vs ws
  | .field s,           .field t           => s.sigEq t
  | .locals as,         .locals bs         => TypeSig.sigEqList as bs
  | .inst as,           .inst bs           => TypeSig.sigEqList as bs
  | _,                  _                  => false

end

end CilCatalog.Live
