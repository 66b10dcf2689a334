import CilCatalog.Description.Tree
import CilCatalog.Live.Definition

/-!
# Blueprints of live modules

The JSON form from which rows, signatures and definitions are made.  It is that of an outline, except that a row stands under a name that was given to it before; a name without a row is no row.
-/

namespace CilCatalog.Blueprint

open Live (Row TypeSig CallSig RowKind MethodId)

/-- What a blueprint makes, or the breach of contract in making it. -/
abbrev Built := Except (Failure DescriptionFault)

/-- The kinds of row that are types. -/
def typeKinds : List RowKind := [.typeDef, .typeRef, .typeSpec]

section

variable (named : Bytes → Row)

/-! ### Rows -/

/-- The row that a name stands for. -/
def row (v : Json) : Row := if v.isNull then .null else named v.bytes

/-- A row that must be of one of the given kinds, if there is one. -/
def rowOf (kinds : List RowKind) (v : Json) : Built Row := (row named v).expect kinds

/-- A row that must be a type, if there is one. -/
def typeRow (v : Json) : Built Row := rowOf named typeKinds v

/-- A row that must be a method definition, if there is one. -/
def methodDef (v : Json) : Built (Option MethodId) := (row named v).toMethodDef

/-! ### Signatures -/

/-- The signature of the leaf type called `n`. -/
def leaf (n : Bytes) : Built TypeSig :=
  match ElementType.ofName? n with
  | some e => TypeSig.ofLeaf e
  | none   => TypeSig.ofLeafCode 0xFF

mutual

/-- The signature of a type, no deeper than `depth`. -/
def typeSigWithin : Nat → Json → Built TypeSig
  | 0,         _ => .error .unexplained
  | depth + 1, v =>
      match v with
      | .null     => .ok .null
      | .string n => leaf n
      | v         =>
          let part (i : Nat) : Json := v.list.getD i .null
          match ElementType.ofName? (part 0).bytes with
          | some .ptr         => do return .wrapper .ptr (← typeSigWithin depth (part 1))
          | some .byRef       => do return .wrapper .byRef (← typeSigWithin depth (part 1))
          | some .szArray     => do return .wrapper .szArray (← typeSigWithin depth (part 1))
          | some .pinned      => do return .wrapper .pinned (← typeSigWithin depth (part 1))
          | some .fnPtr       => do
              return .fnPtr (← (← callSigWithin depth (part 1)).expect CallSig.isMethod)
          | some .cls         => do return .named false (← typeRow named (part 1))
          | some .valueType   => do return .named true (← typeRow named (part 1))
          | some .var         => return .generic false (part 1).uint32
          | some .mvar        => return .generic true (part 1).uint32
          | some .array       => do
              return .array (← typeSigWithin depth (part 1)) (part 2).uint32
                ((part 3).list.map Json.uint32) ((part 4).list.map Json.int32)
          | some .genericInst => do
              let type ← typeSigWithin depth (part 1)
              return .genericInst type (← (part 2).list.mapM (typeSigWithin depth))
          | some .valueArray  => do
              return .valueArray (← typeSigWithin depth (part 1)) (part 2).uint32
          | some .cmodReqd    => do
              let modifier ← typeRow named (part 1)
              return .modifier true modifier (← typeSigWithin depth (part 2))
          | some .cmodOpt     => do
              let modifier ← typeRow named (part 1)
              return .modifier false modifier (← typeSigWithin depth (part 2))
          | some .module      => do
              return .module (part 1).uint32 (← typeSigWithin depth (part 2))
          | _ => leaf (part 0).bytes

/-- The signature with a calling convention, no deeper than `depth`. -/
def callSigWithin : Nat → Json → Built CallSig
  | 0,         _ => .error .unexplained
  | depth + 1, v => do
      if v.isNull then return .null
      if v.has "field" then return .field (← typeSigWithin depth (v.dot "field"))
      if v.has "locals" then
        return .locals (← (v.dot "locals").list.mapM (typeSigWithin depth))
      if v.has "inst" then return .inst (← (v.dot "inst").list.mapM (typeSigWithin depth))
      let ret ← typeSigWithin depth (v.dot "ret")
      let params ← (v.dot "params").list.mapM (typeSigWithin depth)
      let after ← (v.dot "after").list.mapM (typeSigWithin depth)
      let count := (v.dot "generic").uint32
      if v.has "property" then
        return CallSig.ofProperty (v.dot "property").uint8 count ret params after
      else CallSig.ofMethod (v.dot "method").uint8 count ret params after

end

/-- The signature of a type. -/
def typeSig (v : Json) : Built TypeSig := typeSigWithin named (v.depth + 1) v

/-- The signature with a calling convention. -/
def callSig (v : Json) : Built CallSig := callSigWithin named (v.depth + 1) v

/-- The signature of a field, if there is one. -/
def fieldSig (v : Json) : Built CallSig := do (← callSig named v).expect CallSig.isField

/-- The signature of a method, if there is one. -/
def methodSig (v : Json) : Built CallSig := do (← callSig named v).expect CallSig.isMethod

/-- The signature of a property, if there is one. -/
def propertySig (v : Json) : Built CallSig := do (← callSig named v).expect CallSig.isProperty

/-- The type arguments of a generic method, if there are any. -/
def instSig (v : Json) : Built CallSig := do (← callSig named v).expect CallSig.isInst

/-! ### Parts of definitions -/

def customAttributes (v : Json) : List Live.CustomAttribute :=
  v.list.map fun a => ⟨row named (a.dot "ctor"), (a.dot "blob").hex⟩

def genericParams (v : Json) : Built (List Live.GenericParam) :=
  v.list.mapM fun p => do
    return ⟨(p.dot "name").bytes, (p.dot "attributes").uint16, (p.dot "number").uint16,
      ← (p.dot "constraints").list.mapM (typeRow named)⟩

def paramDef (p : Json) : Live.ParamDef :=
  ⟨(p.dot "name").bytes, (p.dot "sequence").uint16, (p.dot "attributes").uint16,
    Description.constant? (p.dot "constant"), customAttributes named (p.dot "custom_attributes")⟩

def propertyDef (p : Json) : Built Live.PropertyDef := do
  return ⟨(p.dot "name").bytes, ← propertySig named (p.dot "sig"), (p.dot "attributes").uint16,
    ← methodDef named (p.dot "get"), ← methodDef named (p.dot "set"),
    customAttributes named (p.dot "custom_attributes")⟩

def eventDef (e : Json) : Built Live.EventDef := do
  return ⟨(e.dot "name").bytes, ← typeRow named (e.dot "event_type"), (e.dot "attributes").uint16,
    ← methodDef named (e.dot "add"), ← methodDef named (e.dot "remove"),
    ← methodDef named (e.dot "invoke"), customAttributes named (e.dot "custom_attributes")⟩

def classLayout (v : Json) : Live.ClassLayout :=
  ⟨(v.list.getD 0 .null).uint16, (v.list.getD 1 .null).uint32⟩

/-- The instruction at a position in a body of `size` instructions. -/
def target (size : Nat) (v : Json) : Live.Target :=
  if v.isNull then .null
  else if 0 ≤ v.number ∧ v.number < size then .inside v.nat
  else .outside

/-- An operand is an object whose one member says of which type it is. -/
def operand (size : Nat) (v : Json) : Built Live.Operand :=
  match v.members with
  | [(k, v)] =>
      match Description.keyName k with
      | "i32"     => return .int32 v.int32
      | "i64"     => return .int64 v.int64
      | "r4"      => return .single v.hexNat.toUInt32
      | "r8"      => return .double v.hexNat.toUInt64
      | "string"  => return .string v.bytes
      | "target"  => return .target (target size v)
      | "targets" => return .targets (v.list.map (target size))
      | "local"   => return .variable (v.opt.map Json.uint32)
      | "arg"     => return .argument v.uint32
      | "row"     => return .row (row named v)
      | "sig"     => do return .signature (← callSig named v)
      | _         => return .none
  | _ => return .none

def instruction (size : Nat) (v : Json) : Built Live.Instruction := do
  match Live.OpCode.ofName? (v.list.getD 0 .null).bytes with
  | some op => return ⟨op, ← operand named size (v.list.getD 1 .null)⟩
  | none    => throw .unexplained

def handler (size : Nat) (h : Json) : Built Live.ExceptionHandler := do
  let boundary (k : String) : Live.Target := target size (h.dot k)
  return ⟨boundary "try_start", boundary "try_end", boundary "filter_start",
    boundary "handler_start", boundary "handler_end", ← typeRow named (h.dot "catch"),
    (h.dot "type").uint8⟩

/-- The body of a method; the stack holds eight values unless something else is said. -/
def body (v : Json) : Built Live.MethodBody := do
  let size := (v.dot "instructions").list.length
  let locals ← (v.dot "locals").list.mapM (typeSig named)
  let instructions ← (v.dot "instructions").list.mapM (instruction named size)
  let handlers ← (v.dot "handlers").list.mapM (handler named size)
  return ⟨instructions, handlers, locals, ((v.dot "max_stack").opt.map Json.uint16).getD 8,
    ((v.dot "init_locals").opt.map Json.truth).getD true⟩

def implMap (v : Json) : Built Live.ImplMap := do
  return ⟨← rowOf named [.moduleRef] (v.dot "module"), (v.dot "name").bytes,
    (v.dot "attributes").uint16⟩

/-! ### Definitions -/

/-- A field without a declaring type. -/
def field (v : Json) : Built Live.FieldDef := do
  return {
    name := (v.dot "name").bytes
    signature := ← fieldSig named (v.dot "sig")
    attributes := (v.dot "attributes").uint16
    initialValue := (v.dot "initial_value").opt.map Json.hex
    constant := Description.constant? (v.dot "constant")
    customAttributes := customAttributes named (v.dot "custom_attributes") }

/-- A method without a declaring type and without a body. -/
def method (v : Json) : Built Live.MethodDef := do
  return {
    name := (v.dot "name").bytes
    signature := ← methodSig named (v.dot "sig")
    attributes := (v.dot "attributes").uint16
    implAttributes := (v.dot "impl_attributes").uint16
    params := (v.dot "params").list.map (paramDef named)
    overrides := (v.dot "overrides").list.map (row named)
    implMap := ← (v.dot "impl_map").opt.mapM (implMap named)
    genericParams := ← genericParams named (v.dot "generic_params")
    customAttributes := customAttributes named (v.dot "custom_attributes") }

/-- What a blueprint says anew about a type.  Properties and events come behind those that are there. -/
def changes (v : Json) (d : Live.TypeDef) : Built Live.TypeDef := do
  let baseType ← (v.dot "base").opt.mapM (typeRow named)
  let interfaces ← (v.dot "interfaces").list?.mapM fun vs => vs.mapM (typeRow named)
  let genericParams ← (v.dot "generic_params").opt.mapM (genericParams named)
  let properties ← (v.dot "properties").list.mapM (propertyDef named)
  let events ← (v.dot "events").list.mapM (eventDef named)
  return { d with
    attributes := ((v.dot "attributes").opt.map Json.uint32).getD d.attributes
    baseType := baseType.getD d.baseType
    interfaces := interfaces.getD d.interfaces
    layout := ((v.dot "layout").opt.map classLayout).or d.layout
    genericParams := genericParams.getD d.genericParams
    customAttributes := ((v.dot "custom_attributes").opt.map
      (customAttributes named)).getD d.customAttributes
    properties := d.properties ++ properties
    events := d.events ++ events }

end

end CilCatalog.Blueprint
