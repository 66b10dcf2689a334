import CilCatalog.Description.Tree
import CilCatalog.Entity

/-!
# Descriptions of entities

An entity is an object whose members are called like the parts of the entity; one of them says whether it is a definition.
-/

namespace CilCatalog.Description

/-- Whether an entity is a definition. -/
def isDefinition (v : Json) : Bool := (v.dot "def").truth

def customAttributes (v : Json) : Described (Option (List CustomAttribute)) :=
  list? (fun a => do
    return ⟨← token (a.dot "Constructor"), (a.dot "RawData").hex⟩) (v.dot "CustomAttributes")

def genericParameters (v : Json) : Described (Option (List GenericParameter)) :=
  list? (fun p => do
    return ⟨(p.dot "Name").bytes, (p.dot "Attributes").int32, (p.dot "Number").int32,
      ← list? tree (p.dot "Constraints")⟩) (v.dot "GenericParameters")

def property (p : Json) : Described Property := do
  return ⟨(p.dot "Name").bytes, ← tree (p.dot "Signature"), (p.dot "Attributes").int32,
    ← token? (p.dot "GetMethod"), ← token? (p.dot "SetMethod"), ← customAttributes p⟩

def event (e : Json) : Described Event := do
  return ⟨(e.dot "Name").bytes, ← tree (e.dot "Type"), (e.dot "Attributes").int32,
    ← token? (e.dot "AddMethod"), ← token? (e.dot "RemoveMethod"),
    ← token? (e.dot "InvokeMethod"), ← customAttributes e⟩

def parameter (p : Json) : Described Parameter := do
  return ⟨(p.dot "Name").bytes, (p.dot "Sequence").int32, (p.dot "Attributes").int32,
    constant? (p.dot "Constant"), ← customAttributes p⟩

def classLayout (l : Json) : ClassLayout := ⟨(l.dot "PackingSize").int32, (l.dot "ClassSize").int32⟩

def implMap (m : Json) : ImplMap :=
  ⟨(m.dot "Name").bytes, (m.dot "Module").bytes, (m.dot "Attributes").int32⟩

/-- An operand is an object whose one member says of which type it is. -/
def operand (v : Json) : Described (Option Operand) :=
  match v.members with
  | [(k, v)] =>
      match keyName k with
      | "Int32"  => return some (.int32 v.int32)
      | "Int64"  => return some (.int64 v.int64)
      | "Single" => return some (.single v.hexNat.toUInt32)
      | "Double" => return some (.double v.hexNat.toUInt64)
      | "String" => return some (.string v.bytes)
      | "Switch" => return some (.targets (v.list.map Json.int32))
      | "Type"   => do return some (.tree (← tree v))
      | _        => return none
  | _ => return none

def instruction (i : Json) : Described Instruction := do
  return ⟨(i.dot "OpCode").bytes, ← operand (i.dot "Operand")⟩

def handler (h : Json) : Described ExceptionHandler := do
  let boundary (k : String) : Int32 := ((h.dot k).opt.map Json.int32).getD ExceptionHandler.absent
  return ⟨boundary "TryStart", boundary "TryEnd", boundary "FilterStart",
    boundary "HandlerStart", boundary "HandlerEnd", ← tree? (h.dot "CatchType"),
    (h.dot "HandlerType").int32⟩

def body (v : Json) : Described MethodBody := do
  return ⟨← (v.dot "Instructions").list.mapM instruction,
    ← (v.dot "ExceptionHandlers").list.mapM handler, ← (v.dot "Variables").list.mapM tree,
    (v.dot "MaxStack").int32, (v.dot "InitLocals").truth⟩

def typeIdentity (v : Json) : TypeIdentity :=
  ⟨(v.dot "Name").bytes, (v.dot "Namespace").bytes, (v.dot "Assembly").bytes?,
    (v.dot "EnclosingNames").list?.map (·.map Json.bytes)⟩

def type (v : Json) : Described TypeEntity := do
  let id := typeIdentity v
  if !isDefinition v then return .reference id
  let baseType ← tree? (v.dot "BaseType")
  let interfaces ← list? tree (v.dot "Interfaces")
  let layout := (v.dot "ClassLayout").opt.map classLayout
  let genericParameters ← genericParameters v
  let customAttributes ← customAttributes v
  let nestedTypes ← list? token (v.dot "NestedTypes")
  let fields ← list? token (v.dot "Fields")
  let methods ← list? token (v.dot "Methods")
  let properties ← list? property (v.dot "Properties")
  let events ← list? event (v.dot "Events")
  return .definition id
    { attributes := (v.dot "Attributes").int32, baseType, interfaces, layout, genericParameters,
      customAttributes, nestedTypes, fields, methods, properties, events }

def memberIdentity (v : Json) : Described MemberIdentity := do
  return ⟨(v.dot "Name").bytes, ← tree (v.dot "Type"), ← tree (v.dot "Signature")⟩

def field (v : Json) : Described FieldEntity := do
  let id ← memberIdentity v
  if !isDefinition v then return .reference id
  return .definition id
    ⟨(v.dot "Attributes").int32, (v.dot "InitialValue").opt.map Json.hex,
      constant? (v.dot "Constant"), ← customAttributes v⟩

def method (v : Json) : Described MethodEntity := do
  let id ← memberIdentity v
  if !isDefinition v then return .reference id
  let parameters ← (v.dot "Parameters").list.mapM parameter
  let body ← (v.dot "Body").opt.mapM body
  let overrides ← list? token (v.dot "Overrides")
  let implMap := (v.dot "ImplMap").opt.map implMap
  let genericParameters ← genericParameters v
  let customAttributes ← customAttributes v
  return .definition id
    { attributes := (v.dot "Attributes").int32, implAttributes := (v.dot "ImplAttributes").int32,
      parameters, body, overrides, implMap, genericParameters, customAttributes }

end CilCatalog.Description
