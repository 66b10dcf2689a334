import CilCatalog.Constant
import CilCatalog.Live.Code

/-!
# Definitions of a live module

The types, fields and methods that a module defines.  These can be changed; they are kept in a store and refer to each other by number.
-/

namespace CilCatalog.Live

/-- A custom attribute: the row of its constructor and its encoded data. -/
structure CustomAttribute where
  constructor : Row
  blob : Bytes
deriving Inhabited

structure GenericParam where
  name : Bytes
  attributes : UInt16 := 0
  number : UInt16 := 0
  constraints : List Row := []
deriving Inhabited

structure ClassLayout where
  packingSize : UInt16
  classSize : UInt32
deriving DecidableEq, Repr, Inhabited

structure ParamDef where
  name : Bytes
  sequence : UInt16 := 0
  attributes : UInt16 := 0
  constant : Option Constant := none
  customAttributes : List CustomAttribute := []

/-- Where a method of a native library is found. -/
structure ImplMap where
  module : Row
  name : Bytes
  attributes : UInt16
deriving Inhabited

structure PropertyDef where
  name : Bytes
  signature : CallSig
  attributes : UInt16 := 0
  getMethod : Option MethodId := none
  setMethod : Option MethodId := none
  customAttributes : List CustomAttribute := []
deriving Inhabited

structure EventDef where
  name : Bytes
  type : Row
  attributes : UInt16 := 0
  addMethod : Option MethodId := none
  removeMethod : Option MethodId := none
  invokeMethod : Option MethodId := none
  customAttributes : List CustomAttribute := []
deriving Inhabited

/-- A type definition. -/
structure TypeDef where
  image : ImageId
  ns : Bytes
  name : Bytes
  declaring : Option TypeId := none
  attributes : UInt32 := 0
  baseType : Row := .null
  interfaces : List Row := []
  layout : Option ClassLayout := none
  genericParams : List GenericParam := []
  customAttributes : List CustomAttribute := []
  nestedTypes : List TypeId := []
  fields : List FieldId := []
  methods : List MethodId := []
  properties : List PropertyDef := []
  events : List EventDef := []
deriving Inhabited

/-- A field definition. -/
structure FieldDef where
  name : Bytes
  signature : CallSig
  declaring : Option TypeId := none
  attributes : UInt16 := 0
  initialValue : Option Bytes := none
  constant : Option Constant := none
  customAttributes : List CustomAttribute := []
deriving Inhabited

/-- A method definition. -/
structure MethodDef where
  name : Bytes
  signature : CallSig
  declaring : Option TypeId := none
  attributes : UInt16 := 0
  implAttributes : UInt16 := 0
  params : List ParamDef := []
  body : Option MethodBody := none
  overrides : List Row := []
  implMap : Option ImplMap := none
  genericParams : List GenericParam := []
  customAttributes : List CustomAttribute := []
deriving Inhabited

end CilCatalog.Live
