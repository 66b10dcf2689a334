import CilCatalog.Constant
import CilCatalog.SigTree.Basic

/-!
# Entities

What a catalog holds: types, fields and methods, each either a reference or a definition.  A reference is an identity; a definition is an identity with data.  Entities name each other by tokens only.  A list that is absent is not the same as one that is empty.
-/

namespace CilCatalog

/-! ### Parts of definitions -/

/-- A custom attribute: the token of its constructor and its encoded data. -/
structure CustomAttribute where
  constructor : Token
  rawData : Bytes
deriving DecidableEq

structure GenericParameter where
  name : Bytes
  attributes : Int32
  number : Int32
  constraints : Option (List SigTree)
deriving DecidableEq

structure ClassLayout where
  packingSize : Int32
  classSize : Int32
deriving DecidableEq, Repr

structure Property where
  name : Bytes
  signature : SigTree
  attributes : Int32
  getMethod : Option Token
  setMethod : Option Token
  customAttributes : Option (List CustomAttribute)
deriving DecidableEq

structure Event where
  name : Bytes
  type : SigTree
  attributes : Int32
  addMethod : Option Token
  removeMethod : Option Token
  invokeMethod : Option Token
  customAttributes : Option (List CustomAttribute)
deriving DecidableEq

structure Parameter where
  name : Bytes
  sequence : Int32
  attributes : Int32
  constant : Option Constant := none
  customAttributes : Option (List CustomAttribute) := none
deriving DecidableEq

/-- The operand of an instruction.  Branch targets, locals and arguments are numbers; floating-point numbers are bit patterns. -/
inductive Operand where
  | int32 (n : Int32)
  | int64 (n : Int64)
  | single (bits : UInt32)
  | double (bits : UInt64)
  | string (s : Bytes)
  | targets (ns : List Int32)
  | tree (t : SigTree)
deriving DecidableEq

structure Instruction where
  opcode : Bytes
  operand : Option Operand := none
deriving DecidableEq

/-- A protected region.  Boundaries are instruction numbers, and -1 is no boundary. -/
structure ExceptionHandler where
  tryStart : Int32
  tryEnd : Int32
  filterStart : Int32
  handlerStart : Int32
  handlerEnd : Int32
  catchType : Option SigTree
  handlerType : Int32
deriving DecidableEq

/-- The number that stands for an absent boundary. -/
def ExceptionHandler.absent : Int32 := -1

structure MethodBody where
  instructions : List Instruction
  handlers : List ExceptionHandler
  locals : List SigTree
  maxStack : Int32
  initLocals : Bool
deriving DecidableEq

/-- Where a method of a native library is found. -/
structure ImplMap where
  name : Bytes
  module : Bytes
  attributes : Int32
deriving DecidableEq, Repr

/-! ### Identities -/

/-- A type by name: its own, its namespace, the assembly that defines it unless that is the one at hand, and the names of the enclosing types from the inside out. -/
structure TypeIdentity where
  name : Bytes
  ns : Bytes
  assembly : Option Bytes
  enclosing : Option (List Bytes)
deriving DecidableEq, Repr

/-- A field or method by its name, its declaring type and its signature. -/
structure MemberIdentity where
  name : Bytes
  type : SigTree
  signature : SigTree
deriving DecidableEq

/-! ### Definition data -/

/-- What a type definition adds to the identity; the last five lists are its children. -/
structure TypeData where
  attributes : Int32 := 0
  baseType : Option SigTree := none
  interfaces : Option (List SigTree) := none
  layout : Option ClassLayout := none
  genericParameters : Option (List GenericParameter) := none
  customAttributes : Option (List CustomAttribute) := none
  nestedTypes : Option (List Token) := none
  fields : Option (List Token) := none
  methods : Option (List Token) := none
  properties : Option (List Property) := none
  events : Option (List Event) := none
deriving DecidableEq

structure FieldData where
  attributes : Int32 := 0
  initialValue : Option Bytes := none
  constant : Option Constant := none
  customAttributes : Option (List CustomAttribute) := none
deriving DecidableEq

structure MethodData where
  attributes : Int32 := 0
  implAttributes : Int32 := 0
  parameters : List Parameter := []
  body : Option MethodBody := none
  overrides : Option (List Token) := none
  implMap : Option ImplMap := none
  genericParameters : Option (List GenericParameter) := none
  customAttributes : Option (List CustomAttribute) := none
deriving DecidableEq

/-! ### Entities -/

/-- A reference, or a definition, which extends one by data. -/
inductive Entity (ι δ : Type) where
  | reference (id : ι)
  | definition (id : ι) (data : δ)
deriving DecidableEq

namespace Entity

variable {ι δ : Type}

def identity : Entity ι δ → ι
  | reference id    => id
  | definition id _ => id

def data? : Entity ι δ → Option δ
  | reference _    => none
  | definition _ d => some d

def isDefinition (e : Entity ι δ) : Bool := e.data?.isSome

/-- The entity with the given identity and data. -/
def ofParts (id : ι) : Option δ → Entity ι δ
  | none   => reference id
  | some d => definition id d

theorem ofParts_identity_data? (e : Entity ι δ) : ofParts e.identity e.data? = e := by
  cases e <;> rfl

end Entity

abbrev TypeEntity := Entity TypeIdentity TypeData

abbrev FieldEntity := Entity MemberIdentity FieldData

abbrev MethodEntity := Entity MemberIdentity MethodData

/-- Identities that carry a name. -/
class Named (ι : Type) where
  name : ι → Bytes

instance : Named TypeIdentity := ⟨TypeIdentity.name⟩

instance : Named MemberIdentity := ⟨MemberIdentity.name⟩

/-- The name of an entity. -/
def Entity.name {ι δ : Type} [Named ι] (e : Entity ι δ) : Bytes := Named.name e.identity

/-- The data of an entity that must be a definition. -/
def Entity.requireData {ι δ φ : Type} [Named ι] (e : Entity ι δ) : Except (Failure φ) δ :=
  match e.data? with
  | some d => .ok d
  | none   => .error (.breach ("Entity '" ++ e.name ++ "' is not a definition"))

end CilCatalog
