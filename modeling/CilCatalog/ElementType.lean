import CilCatalog.Bytes

/-!
# Element types

The element type codes of ECMA-335 as they appear in signature blobs, with their names.  Codes and names identify an element type.
-/

namespace CilCatalog

/-- An element type of a signature. -/
inductive ElementType where
  | endMark | void | boolean | char | i1 | u1 | i2 | u2 | i4 | u4 | i8 | u8 | r4 | r8
  | string | ptr | byRef | valueType | cls | var | array | genericInst | typedByRef
  | valueArray | i | u | r | fnPtr | object | szArray | mvar | cmodReqd | cmodOpt | module
  | sentinel | pinned
deriving DecidableEq, Repr

namespace ElementType

/-- The code in a signature blob. -/
def code : ElementType → UInt8
  | endMark     => 0x00
  | void        => 0x01
  | boolean     => 0x02
  | char        => 0x03
  | i1          => 0x04
  | u1          => 0x05
  | i2          => 0x06
  | u2          => 0x07
  | i4          => 0x08
  | u4          => 0x09
  | i8          => 0x0A
  | u8          => 0x0B
  | r4          => 0x0C
  | r8          => 0x0D
  | string      => 0x0E
  | ptr         => 0x0F
  | byRef       => 0x10
  | valueType   => 0x11
  | cls         => 0x12
  | var         => 0x13
  | array       => 0x14
  | genericInst => 0x15
  | typedByRef  => 0x16
  | valueArray  => 0x17
  | i           => 0x18
  | u           => 0x19
  | r           => 0x1A
  | fnPtr       => 0x1B
  | object      => 0x1C
  | szArray     => 0x1D
  | mvar        => 0x1E
  | cmodReqd    => 0x1F
  | cmodOpt     => 0x20
  | module      => 0x3F
  | sentinel    => 0x41
  | pinned      => 0x45

/-- The name in the text form. -/
def name : ElementType → String
  | endMark     => "End"
  | void        => "Void"
  | boolean     => "Boolean"
  | char        => "Char"
  | i1          => "I1"
  | u1          => "U1"
  | i2          => "I2"
  | u2          => "U2"
  | i4          => "I4"
  | u4          => "U4"
  | i8          => "I8"
  | u8          => "U8"
  | r4          => "R4"
  | r8          => "R8"
  | string      => "String"
  | ptr         => "Ptr"
  | byRef       => "ByRef"
  | valueType   => "ValueType"
  | cls         => "Class"
  | var         => "Var"
  | array       => "Array"
  | genericInst => "GenericInst"
  | typedByRef  => "TypedByRef"
  | valueArray  => "ValueArray"
  | i           => "I"
  | u           => "U"
  | r           => "R"
  | fnPtr       => "FnPtr"
  | object      => "Object"
  | szArray     => "SZArray"
  | mvar        => "MVar"
  | cmodReqd    => "CModReqd"
  | cmodOpt     => "CModOpt"
  | module      => "Module"
  | sentinel    => "Sentinel"
  | pinned      => "Pinned"

/-- All element types, by code. -/
def all : List ElementType :=
  [endMark, void, boolean, char, i1, u1, i2, u2, i4, u4, i8, u8, r4, r8, string, ptr,
   byRef, valueType, cls, var, array, genericInst, typedByRef, valueArray, i, u, r,
   fnPtr, object, szArray, mvar, cmodReqd, cmodOpt, module, sentinel, pinned]

/-- The element type with code `c`. -/
def ofCode? (c : UInt8) : Option ElementType := all.find? (·.code == c)

/-- The element type called `n`. -/
def ofName? (n : Bytes) : Option ElementType := all.find? (utf8 ·.name == n)

/-- Whether a signature of this type has no parts: the primitive types, the core library's `Object` and `String`, and the `Sentinel` marker. -/
def isLeaf : ElementType → Bool
  | endMark | void | boolean | char | i1 | u1 | i2 | u2 | i4 | u4 | i8 | u8 | r4 | r8 | string
  | typedByRef | i | u | r | object | sentinel => true
  | _ => false

/-- Whether a signature of this type is one other signature and nothing else. -/
def isWrapper : ElementType → Bool
  | ptr | byRef | szArray | pinned => true
  | _ => false

theorem mem_all (e : ElementType) : e ∈ all := by
  cases e <;> decide

theorem ofCode?_code (e : ElementType) : ofCode? e.code = some e := by
  cases e <;> decide

theorem ofName?_name (e : ElementType) : ofName? e.name = some e := by
  cases e <;> decide

theorem code_of_ofCode? {c : UInt8} {e : ElementType} (h : ofCode? c = some e) : e.code = c := by
  simpa using List.find?_some h

theorem name_of_ofName? {n : Bytes} {e : ElementType} (h : ofName? n = some e) :
    utf8 e.name = n := by
  simpa using List.find?_some h

end ElementType

end CilCatalog
