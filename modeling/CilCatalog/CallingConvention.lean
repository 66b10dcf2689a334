import CilCatalog.Bytes

/-!
# Calling conventions

The low four bits of a signature's first octet say what kind of signature it is, and the bits above them carry flags.
-/

namespace CilCatalog

/-- What kind of signature a first octet announces. -/
inductive CallingConvention where
  | standard | cDecl | stdCall | thisCall | fastCall | varArg | field | localSig | property
  | unmanaged | genericInst | nativeVarArg
deriving DecidableEq, Repr

namespace CallingConvention

/-- The low four bits of the first octet. -/
def code : CallingConvention → UInt8
  | standard     => 0x0
  | cDecl        => 0x1
  | stdCall      => 0x2
  | thisCall     => 0x3
  | fastCall     => 0x4
  | varArg       => 0x5
  | field        => 0x6
  | localSig     => 0x7
  | property     => 0x8
  | unmanaged    => 0x9
  | genericInst  => 0xA
  | nativeVarArg => 0xB

/-- The name in the text form. -/
def name : CallingConvention → String
  | standard     => "Default"
  | cDecl        => "C"
  | stdCall      => "StdCall"
  | thisCall     => "ThisCall"
  | fastCall     => "FastCall"
  | varArg       => "VarArg"
  | field        => "Field"
  | localSig     => "LocalSig"
  | property     => "Property"
  | unmanaged    => "Unmanaged"
  | genericInst  => "GenericInstCC"
  | nativeVarArg => "NativeVarArg"

/-- All calling conventions, by code. -/
def all : List CallingConvention :=
  [standard, cDecl, stdCall, thisCall, fastCall, varArg, field, localSig, property, unmanaged,
   genericInst, nativeVarArg]

/-- The calling convention with code `n`. -/
def ofCode? (n : UInt8) : Option CallingConvention := all.find? (·.code == n)

/-- The calling convention called `n`. -/
def ofName? (n : Bytes) : Option CallingConvention := all.find? (utf8 ·.name == n)

/-- Whether a signature of this kind has a return type and parameters. -/
def isMethodLike : CallingConvention → Bool
  | field | localSig | genericInst => false
  | _ => true

/-! ### First octets -/

/-- The bits of the calling convention itself. -/
def mask : UInt8 := 0x0F

/-- The calling convention of a first octet. -/
def ofRaw? (raw : UInt8) : Option CallingConvention := ofCode? (raw &&& mask)

/-- Whether a first octet announces a return type and parameters. -/
def isMethodLikeRaw (raw : UInt8) : Bool := ((ofRaw? raw).map isMethodLike).getD false

/-- Whether a first octet is one of methods or has the bit of properties, whose flags can turn the calling convention into another. -/
def isMethodOrPropertyRaw (raw : UInt8) : Bool := isMethodLikeRaw raw || raw &&& property.code != 0

/-- The signature states a number of generic parameters. -/
def genericFlag : UInt8 := 0x10

/-- The method has a hidden first parameter. -/
def hasThisFlag : UInt8 := 0x20

/-- The hidden first parameter is listed among the others. -/
def explicitThisFlag : UInt8 := 0x40

theorem mem_all (k : CallingConvention) : k ∈ all := by
  cases k <;> decide

theorem ofCode?_code (k : CallingConvention) : ofCode? k.code = some k := by
  cases k <;> decide

theorem ofName?_name (k : CallingConvention) : ofName? k.name = some k := by
  cases k <;> decide

theorem code_of_ofCode? {n : UInt8} {k : CallingConvention} (h : ofCode? n = some k) :
    k.code = n := by
  simpa using List.find?_some h

theorem name_of_ofName? {n : Bytes} {k : CallingConvention} (h : ofName? n = some k) :
    utf8 k.name = n := by
  simpa using List.find?_some h

theorem code_and_mask (k : CallingConvention) : k.code &&& mask = k.code := by
  cases k <;> decide

/-- Flags leave the calling convention as it is. -/
theorem ofRaw?_or (k : CallingConvention) {flags : UInt8} (h : flags &&& mask = 0) :
    ofRaw? (k.code ||| flags) = some k := by
  have e : (k.code ||| flags) &&& mask = (k.code &&& mask) ||| (flags &&& mask) :=
    UInt8.toBitVec_inj.1 (by simp [BitVec.and_or_distrib_right])
  rw [ofRaw?, e, h, UInt8.or_zero, code_and_mask, ofCode?_code]

theorem isMethodLikeRaw_or {k : CallingConvention} {flags : UInt8} (hk : k.isMethodLike = true)
    (h : flags &&& mask = 0) : isMethodLikeRaw (k.code ||| flags) = true := by
  simp [isMethodLikeRaw, ofRaw?_or k h, hk]

theorem isMethodOrPropertyRaw_of_isMethodLikeRaw {raw : UInt8} (h : isMethodLikeRaw raw = true) :
    isMethodOrPropertyRaw raw = true := by
  rw [isMethodOrPropertyRaw, h, Bool.true_or]

theorem isMethodOrPropertyRaw_or {k : CallingConvention} {flags : UInt8}
    (hk : k.isMethodLike = true) (h : flags &&& mask = 0) :
    isMethodOrPropertyRaw (k.code ||| flags) = true :=
  isMethodOrPropertyRaw_of_isMethodLikeRaw (isMethodLikeRaw_or hk h)

/-- The bit of properties stays, whatever flags there are. -/
theorem isMethodOrPropertyRaw_property_or (flags : UInt8) :
    isMethodOrPropertyRaw (property.code ||| flags) = true := by
  have bit : (property.code ||| flags) &&& property.code = property.code := by
    apply UInt8.toBitVec_inj.1
    ext i
    simp only [UInt8.toBitVec_and, UInt8.toBitVec_or, BitVec.getElem_and, BitVec.getElem_or]
    grind
  rw [isMethodOrPropertyRaw, bit, Bool.or_eq_true]
  exact .inr rfl

/-- A first octet that announces parameters has the calling convention of a method. -/
theorem exists_of_isMethodLikeRaw {raw : UInt8} (h : isMethodLikeRaw raw = true) :
    ∃ k, ofCode? (raw &&& mask) = some k ∧ k.isMethodLike = true := by
  cases hk : ofCode? (raw &&& mask) with
  | none =>
      rw [isMethodLikeRaw, ofRaw?, hk] at h
      exact absurd h Bool.false_ne_true
  | some k =>
      rw [isMethodLikeRaw, ofRaw?, hk] at h
      exact ⟨k, rfl, h⟩

end CallingConvention

end CilCatalog
