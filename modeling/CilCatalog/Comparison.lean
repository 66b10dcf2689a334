import CilCatalog.Entity

/-!
# Comparison of entities

Two ways to compare entities.  By *reference*, only identities count and an absent list is as good as an empty one; this is the equality entities are registered under.  In *full*, both sides must be of the same shape and every part of the data counts, lists that are absent or empty apart.  Hashes only see identities, so they agree with both.
-/

namespace CilCatalog

/-- A way to compare. -/
structure Comparison where
  /-- Whether the data of definitions is left out. -/
  identityOnly : Bool
  /-- Whether an absent list equals an empty one. -/
  absentIsEmpty : Bool
deriving DecidableEq, Repr

namespace Comparison

/-- Identities only, absent lists being empty. -/
def reference : Comparison := ⟨true, true⟩

/-- Everything, absent lists being different from empty ones. -/
def full : Comparison := ⟨false, false⟩

/-! ### Lists and options -/

section Parts

variable {α : Type}

/-- Elements in order. -/
def list (eq : α → α → Bool) : List α → List α → Bool
  | [],      []      => true
  | a :: as, b :: bs => eq a b && list eq as bs
  | _,       _       => false

/-- Both absent, or both present and equal. -/
def option (eq : α → α → Bool) : Option α → Option α → Bool
  | none,   none   => true
  | some a, some b => eq a b
  | _,      _      => false

/-- Lists that may be absent. -/
def optionalList (c : Comparison) (eq : α → α → Bool) :
    Option (List α) → Option (List α) → Bool
  | some as, some bs => list eq as bs
  | none,    none    => true
  | some as, none    => c.absentIsEmpty && as.isEmpty
  | none,    some bs => c.absentIsEmpty && bs.isEmpty

end Parts

/-! ### Identities -/

def typeIdentity (c : Comparison) (a b : TypeIdentity) : Bool :=
  a.name == b.name && a.ns == b.ns && a.assembly == b.assembly &&
    c.optionalList (· == ·) a.enclosing b.enclosing

def memberIdentity (_ : Comparison) (a b : MemberIdentity) : Bool :=
  a.name == b.name && a.type == b.type && a.signature == b.signature

/-! ### Parts of definitions -/

def value : ConstantValue → ConstantValue → Bool
  | .null,     .null     => true
  | .bool a,   .bool b   => a == b
  | .char a,   .char b   => a == b
  | .i1 a,     .i1 b     => a == b
  | .u1 a,     .u1 b     => a == b
  | .i2 a,     .i2 b     => a == b
  | .u2 a,     .u2 b     => a == b
  | .i4 a,     .i4 b     => a == b
  | .u4 a,     .u4 b     => a == b
  | .i8 a,     .i8 b     => a == b
  | .u8 a,     .u8 b     => a == b
  | .r4 a,     .r4 b     => a == b
  | .r8 a,     .r8 b     => a == b
  | .string a, .string b => a == b
  | _,         _         => false

def constant (a b : Constant) : Bool := a.type == b.type && value a.value b.value

def customAttribute (a b : CustomAttribute) : Bool :=
  a.constructor == b.constructor && a.rawData == b.rawData

def customAttributes (c : Comparison) (a b : Option (List CustomAttribute)) : Bool :=
  c.optionalList customAttribute a b

def genericParameter (c : Comparison) (a b : GenericParameter) : Bool :=
  a.name == b.name && a.attributes == b.attributes && a.number == b.number &&
    c.optionalList (· == ·) a.constraints b.constraints

def genericParameters (c : Comparison) (a b : Option (List GenericParameter)) : Bool :=
  c.optionalList c.genericParameter a b

def layout (a b : ClassLayout) : Bool :=
  a.packingSize == b.packingSize && a.classSize == b.classSize

def property (c : Comparison) (a b : Property) : Bool :=
  a.name == b.name && a.signature == b.signature && a.attributes == b.attributes &&
    a.getMethod == b.getMethod && a.setMethod == b.setMethod &&
    c.customAttributes a.customAttributes b.customAttributes

def event (c : Comparison) (a b : Event) : Bool :=
  a.name == b.name && a.type == b.type && a.attributes == b.attributes &&
    a.addMethod == b.addMethod && a.removeMethod == b.removeMethod &&
    a.invokeMethod == b.invokeMethod &&
    c.customAttributes a.customAttributes b.customAttributes

def parameter (c : Comparison) (a b : Parameter) : Bool :=
  a.name == b.name && a.sequence == b.sequence && a.attributes == b.attributes &&
    c.customAttributes a.customAttributes b.customAttributes &&
    option constant a.constant b.constant

def operand : Operand → Operand → Bool
  | .int32 a,   .int32 b   => a == b
  | .int64 a,   .int64 b   => a == b
  | .single a,  .single b  => a == b
  | .double a,  .double b  => a == b
  | .string a,  .string b  => a == b
  | .targets a, .targets b => list (· == ·) a b
  | .tree a,    .tree b    => a == b
  | _,          _          => false

def instruction (a b : Instruction) : Bool :=
  a.opcode == b.opcode && option operand a.operand b.operand

def handler (a b : ExceptionHandler) : Bool :=
  a.tryStart == b.tryStart && a.tryEnd == b.tryEnd && a.filterStart == b.filterStart &&
    a.handlerStart == b.handlerStart && a.handlerEnd == b.handlerEnd &&
    a.handlerType == b.handlerType && option (· == ·) a.catchType b.catchType

def body (a b : MethodBody) : Bool :=
  a.maxStack == b.maxStack && a.initLocals == b.initLocals &&
    list instruction a.instructions b.instructions && list handler a.handlers b.handlers &&
    list (· == ·) a.locals b.locals

def implMap (a b : ImplMap) : Bool :=
  a.name == b.name && a.module == b.module && a.attributes == b.attributes

/-! ### Definition data -/

def typeData (c : Comparison) (a b : TypeData) : Bool :=
  a.attributes == b.attributes && option (· == ·) a.baseType b.baseType &&
    c.customAttributes a.customAttributes b.customAttributes &&
    c.genericParameters a.genericParameters b.genericParameters &&
    c.optionalList (· == ·) a.interfaces b.interfaces && option layout a.layout b.layout &&
    c.optionalList (· == ·) a.nestedTypes b.nestedTypes &&
    c.optionalList (· == ·) a.fields b.fields &&
    c.optionalList (· == ·) a.methods b.methods &&
    c.optionalList c.property a.properties b.properties &&
    c.optionalList c.event a.events b.events

def fieldData (c : Comparison) (a b : FieldData) : Bool :=
  a.attributes == b.attributes && option (list (· == ·)) a.initialValue b.initialValue &&
    c.customAttributes a.customAttributes b.customAttributes &&
    option constant a.constant b.constant

def methodData (c : Comparison) (a b : MethodData) : Bool :=
  a.attributes == b.attributes && a.implAttributes == b.implAttributes &&
    list c.parameter a.parameters b.parameters && option body a.body b.body &&
    c.customAttributes a.customAttributes b.customAttributes &&
    c.genericParameters a.genericParameters b.genericParameters &&
    c.optionalList (· == ·) a.overrides b.overrides && option implMap a.implMap b.implMap

/-! ### Entities -/

/-- Entities under a comparison of their identities and one of their data. -/
def entity {ι δ : Type} (c : Comparison) (id : ι → ι → Bool) (data : δ → δ → Bool) :
    Entity ι δ → Entity ι δ → Bool
  | .reference a,    .reference b    => id a b
  | .definition a x, .definition b y => id a b && (c.identityOnly || data x y)
  | .reference a,    .definition b _ => c.identityOnly && id a b
  | .definition a _, .reference b    => c.identityOnly && id a b

def types (c : Comparison) : TypeEntity → TypeEntity → Bool :=
  c.entity c.typeIdentity c.typeData

def fields (c : Comparison) : FieldEntity → FieldEntity → Bool :=
  c.entity c.memberIdentity c.fieldData

def methods (c : Comparison) : MethodEntity → MethodEntity → Bool :=
  c.entity c.memberIdentity c.methodData

end Comparison

/-! ### Hashes -/

namespace IdentityHash

/-- The next hash of a sequence. -/
def combine (h v : UInt64) : UInt64 := h * 0xFFFFFFFFA5555529 + v

/-- The hash of a token, given one of byte strings. -/
def token (string : Bytes → UInt64) : Token → UInt64
  | .named n => string n.bytes
  | .index i => i.toInt64.toUInt64

mutual

/-- The hash of a tree: its kind, token, code and arguments. -/
def tree (string : Bytes → UInt64) : SigTree → UInt64
  | .token t        => combine (combine 0 (token string t)) 0
  | .typeSig c as   => trees string (combine (combine 1 0) c.toUInt64) as
  | .callSig c as   => trees string (combine (combine 2 0) c.toUInt64) as
  | .int32 v        => combine (combine 3 v.toInt64.toUInt64) 0
  | .methodSpec m i =>
      combine (combine (combine (combine 4 0) 0) (tree string m)) (tree string i)
  | .inline k o     =>
      combine (combine (combine k.node.code.toUInt64 0) 0) (tree string o)

def trees (string : Bytes → UInt64) (h : UInt64) : List SigTree → UInt64
  | []      => h
  | a :: as => trees string (combine h (tree string a)) as

end

/-- The hash of a type's identity; an absent list of names hashes as an empty one. -/
def typeIdentity (string : Bytes → UInt64) (t : TypeIdentity) : UInt64 :=
  let h := combine (combine (string t.name) (string t.ns)) ((t.assembly.map string).getD 0)
  combine h ((t.enclosing.getD []).foldl (fun names n => combine names (string n)) 0)

def memberIdentity (string : Bytes → UInt64) (m : MemberIdentity) : UInt64 :=
  combine (combine (string m.name) (tree string m.type)) (tree string m.signature)

end IdentityHash

end CilCatalog
