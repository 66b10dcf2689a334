import CilCatalog.Base64
import CilCatalog.Json.Value
import CilCatalog.Partition
import CilCatalog.SigTree.Format
import CilCatalog.Warned

/-!
# Writing documents

A document is a partition as a JSON value.  Members come in a fixed order, and what is absent is left out.  There are two styles, which differ in how tokens and signature trees are written: as objects in the structured one, and as bare values and as text in the compact one.  A tree without a text cannot be written in the compact style: a null takes its place, the first such fault is remembered, and the document is written to its end and then given up.  Nothing else stops a document from being written.
-/

namespace CilCatalog

/-- How tokens and signature trees are written. -/
inductive DocumentStyle where
  | structured | compact
deriving DecidableEq, Repr

namespace Encode

open SigTree (FormatFault)

/-! ### Members and lists -/

/-- The members of an object, or part of them. -/
abbrev Members := List (Bytes × Json)

section Parts

variable {α : Type} {μ : Type → Type} [Monad μ]

def member (k : Bytes) (v : Json) : Bytes × Json := (k, v)

/-- A member that is left out if there is nothing to write. -/
def optional (k : Bytes) (f : α → Json) : Option α → Members
  | none   => []
  | some a => [(k, f a)]

/-- The same for a value with trees in it. -/
def optionalM (k : Bytes) (f : α → μ Json) : Option α → μ Members
  | none   => pure []
  | some a => do return [(k, ← f a)]

/-- An array. -/
def list (f : α → Json) (as : List α) : Json := .array (as.map f)

/-- An array of values with trees in them. -/
def listM (f : α → μ Json) (as : List α) : μ Json := do
  return .array (← as.mapM f)

end Parts

def int32 (n : Int32) : Json := .int n.toInt64

def code (c : UInt8) : Json := .int (Int64.ofNat c.toNat)

def bytes (b : Bytes) : Json := .string (Base64.encode b)

/-! ### Tokens and trees -/

def token : DocumentStyle → Token → Json
  | .compact,    .named n => .string n.bytes
  | .compact,    .index i => int32 i
  | .structured, .named n => .object [member "Name" (.string n.bytes)]
  | .structured, .index i => .object [member "Index" (int32 i)]

/-- The arguments of a node, unless there are none. -/
def arguments : List Json → Members
  | [] => []
  | as => [member "Arguments" (.array as)]

/-- The kind of a node, as the first of its members. -/
def kind (k : NodeKind) : Bytes × Json := member "Kind" (.int (Int64.ofNat k.code))

mutual

/-- A tree as objects.  An integer is written like a token with that index. -/
def structuredTree : SigTree → Json
  | .token t        => .object [kind .token, member "Token" (token .structured t)]
  | .typeSig c as   =>
      .object (kind .typeSig :: member "Type" (code c) :: arguments (structuredTrees as))
  | .callSig c as   =>
      .object (kind .callSig :: member "Type" (code c) :: arguments (structuredTrees as))
  | .int32 v        => .object [kind .int32, member "Token" (token .structured (.index v))]
  | .methodSpec m i =>
      .object (kind .methodSpec :: arguments [structuredTree m, structuredTree i])
  | .inline k o     => .object (kind k.node :: arguments [structuredTree o])

def structuredTrees : List SigTree → List Json
  | []      => []
  | a :: as => structuredTree a :: structuredTrees as

end

/-- A tree, or the fault that gives up the document. -/
def tree : DocumentStyle → SigTree → Except FormatFault Json
  | .structured, t => .ok (structuredTree t)
  | .compact,    t => do return .string (← t.format)

/-- A computation that remembers the first fault it met. -/
abbrev Latched : Type → Type := StateM (Option FormatFault)

/-- A tree, or null in its place.  The fault is remembered if it is the first one, and the writing goes on. -/
def latchedTree : DocumentStyle → SigTree → Latched Json
  | .structured, t => pure (structuredTree t)
  | .compact,    t =>
      match t.format with
      | .ok text => pure (.string text)
      | .error f => do
          modify fun first => some (first.getD f)
          return .null

/-- What a computation has to show when it is done: the first fault, if it met one. -/
def Latched.result {α : Type} (x : Latched α) : Except FormatFault α :=
  match x.run none with
  | (a, none)   => .ok a
  | (_, some f) => .error f

/-! ### Parts of definitions

How a tree is written is up to `write`; whatever it does is done tree by tree, in the order of the document.
-/

section Documents

variable {μ : Type → Type} [Monad μ] (write : SigTree → μ Json)

/-- A constant: its type, and a string or a slot; null has neither. -/
def constant (c : Constant) : Json :=
  let type := member "Type" (code c.type)
  match c.value with
  | .string s => .object [type, member "String" (.string s)]
  | v         => .object (type :: optional "Value" .int v.slot?)

def customAttribute (s : DocumentStyle) (a : CustomAttribute) : Json :=
  .object [member "Constructor" (token s a.constructor), member "RawData" (bytes a.rawData)]

def customAttributes (s : DocumentStyle) (as : Option (List CustomAttribute)) : Members :=
  optional "CustomAttributes" (list (customAttribute s)) as

def genericParameter (p : GenericParameter) : μ Json := do
  let constraints ← optionalM "Constraints" (listM write) p.constraints
  return .object
    ([member "Name" (.string p.name), member "Attributes" (int32 p.attributes), member "Number" (int32 p.number)] ++
      constraints)

def genericParameters (ps : Option (List GenericParameter)) : μ Members :=
  optionalM "GenericParameters" (listM (genericParameter write)) ps

def layout (l : ClassLayout) : Json :=
  .object [member "PackingSize" (int32 l.packingSize), member "ClassSize" (int32 l.classSize)]

def property (s : DocumentStyle) (p : Property) : μ Json := do
  let signature ← write p.signature
  return .object
    ([member "Name" (.string p.name), member "Signature" signature, member "Attributes" (int32 p.attributes)] ++
      optional "GetMethod" (token s) p.getMethod ++ optional "SetMethod" (token s) p.setMethod ++
      customAttributes s p.customAttributes)

def event (s : DocumentStyle) (e : Event) : μ Json := do
  let type ← write e.type
  return .object
    ([member "Name" (.string e.name), member "Type" type, member "Attributes" (int32 e.attributes)] ++
      optional "AddMethod" (token s) e.addMethod ++
      optional "RemoveMethod" (token s) e.removeMethod ++
      optional "InvokeMethod" (token s) e.invokeMethod ++
      customAttributes s e.customAttributes)

def parameter (s : DocumentStyle) (p : Parameter) : Json :=
  .object
    ([member "Name" (.string p.name), member "Sequence" (int32 p.sequence),
        member "Attributes" (int32 p.attributes)] ++
      optional "Constant" constant p.constant ++ customAttributes s p.customAttributes)

/-- An operand, as the only member of an object.  Floating-point numbers are written as slots. -/
def operand : Operand → μ Json
  | .int32 n    => pure (.object [member "Int32" (int32 n)])
  | .int64 n    => pure (.object [member "Int64" (.int n)])
  | .single b   => pure (.object (optional "Single" .int (ConstantValue.r4 b).slot?))
  | .double b   => pure (.object (optional "Double" .int (ConstantValue.r8 b).slot?))
  | .string t   => pure (.object [member "String" (.string t)])
  | .targets ns => pure (.object [member "Switch" (list int32 ns)])
  | .tree t     => do return .object [member "Type" (← write t)]

def instruction (i : Instruction) : μ Json := do
  let operand ← optionalM "Operand" (operand write) i.operand
  return .object (member "OpCode" (.string i.opcode) :: operand)

def handler (h : ExceptionHandler) : μ Json := do
  let catchType ← optionalM "CatchType" write h.catchType
  return .object
    ([member "TryStart" (int32 h.tryStart), member "TryEnd" (int32 h.tryEnd),
        member "FilterStart" (int32 h.filterStart), member "HandlerStart" (int32 h.handlerStart),
        member "HandlerEnd" (int32 h.handlerEnd)] ++
      catchType ++ [member "HandlerType" (int32 h.handlerType)])

def body (b : MethodBody) : μ Json := do
  let instructions ← listM (instruction write) b.instructions
  let handlers ← listM (handler write) b.handlers
  let locals ← listM write b.locals
  return .object
    [member "Instructions" instructions, member "ExceptionHandlers" handlers, member "Variables" locals,
      member "MaxStack" (int32 b.maxStack), member "InitLocals" (.bool b.initLocals)]

def implMap (m : ImplMap) : Json :=
  .object
    [member "Name" (.string m.name), member "Module" (.string m.module), member "Attributes" (int32 m.attributes)]

/-! ### Entities -/

def typeIdentity (t : TypeIdentity) : Members :=
  [member "Name" (.string t.name), member "Namespace" (.string t.ns)] ++
    optional "Assembly" .string t.assembly ++
    optional "EnclosingNames" (list .string) t.enclosing

def memberIdentity (m : MemberIdentity) : μ Members := do
  let type ← write m.type
  let signature ← write m.signature
  return [member "Name" (.string m.name), member "Type" type, member "Signature" signature]

def typeData (s : DocumentStyle) (d : TypeData) : μ Members := do
  let baseType ← optionalM "BaseType" write d.baseType
  let interfaces ← optionalM "Interfaces" (listM write) d.interfaces
  let generics ← genericParameters write d.genericParameters
  let properties ← optionalM "Properties" (listM (property write s)) d.properties
  let events ← optionalM "Events" (listM (event write s)) d.events
  return member "Attributes" (int32 d.attributes) :: baseType ++ interfaces ++
    optional "ClassLayout" layout d.layout ++ generics ++ customAttributes s d.customAttributes ++
    optional "NestedTypes" (list (token s)) d.nestedTypes ++
    optional "Fields" (list (token s)) d.fields ++
    optional "Methods" (list (token s)) d.methods ++ properties ++ events

def fieldData (s : DocumentStyle) (d : FieldData) : Members :=
  member "Attributes" (int32 d.attributes) :: optional "InitialValue" bytes d.initialValue ++
    optional "Constant" constant d.constant ++ customAttributes s d.customAttributes

def methodData (s : DocumentStyle) (d : MethodData) : μ Members := do
  let body ← optionalM "Body" (body write) d.body
  let generics ← genericParameters write d.genericParameters
  return [member "Attributes" (int32 d.attributes), member "ImplAttributes" (int32 d.implAttributes),
      member "Parameters" (list (parameter s) d.parameters)] ++ body ++
    optional "Overrides" (list (token s)) d.overrides ++ optional "ImplMap" implMap d.implMap ++
    generics ++ customAttributes s d.customAttributes

def typeReference (t : TypeIdentity) : μ Json := pure (.object (typeIdentity t))

def memberReference (m : MemberIdentity) : μ Json := do
  return .object (← memberIdentity write m)

def typeDefinition (s : DocumentStyle) (t : TypeIdentity × TypeData) : μ Json := do
  return .object (typeIdentity t.1 ++ (← typeData write s t.2))

def fieldDefinition (s : DocumentStyle) (f : MemberIdentity × FieldData) : μ Json := do
  return .object ((← memberIdentity write f.1) ++ fieldData s f.2)

def methodDefinition (s : DocumentStyle) (m : MemberIdentity × MethodData) : μ Json := do
  let id ← memberIdentity write m.1
  let data ← methodData write s m.2
  return .object (id ++ data)

/-! ### Documents -/

/-- Entities under their keys. -/
def keyed {α : Type} (f : α → μ Json) (m : Keyed α) : μ Json := do
  return .object (← m.entries.mapM fun e => do return (e.1, ← f e.2))

def part {ι δ : Type} (reference : ι → μ Json) (definition : ι × δ → μ Json)
    (p : PartitionSection ι δ) : μ Json := do
  let references ← keyed reference p.references
  let definitions ← keyed definition p.definitions
  return .object
    [member "References" references, member "Definitions" definitions, member "Orders" (list int32 p.turns)]

/-- The document of a partition. -/
def document (s : DocumentStyle) (p : Partition) : μ Json := do
  let types ← part typeReference (typeDefinition write s) p.types
  let fields ← part (memberReference write) (fieldDefinition write s) p.fields
  let methods ← part (memberReference write) (methodDefinition write s) p.methods
  return .object
    [member "Options" (.int (Int64.ofNat p.options.bits.toNat)), member "Types" types, member "Fields" fields,
      member "Methods" methods]

end Documents

/-! ### Warnings

Every constant and every literal of a document is put into a slot, also if the document is not written for want of a text. -/

def constantWarnings (c : Option Constant) : List Warning :=
  c.toList.filterMap (·.value.slotWarning?)

def instructionWarnings (i : Instruction) : List Warning :=
  match i.operand with
  | some (.single b) => ((ConstantValue.r4 b).slotWarning?).toList
  | _                => []

def fieldWarnings (d : FieldData) : List Warning := constantWarnings d.constant

def methodWarnings (d : MethodData) : List Warning :=
  d.parameters.flatMap (constantWarnings ·.constant) ++
    d.body.toList.flatMap fun b => b.instructions.flatMap instructionWarnings

/-- What writing a partition warns of, in the order of the document. -/
def warnings (p : Partition) : List Warning :=
  p.fields.definitions.entries.flatMap (fieldWarnings ·.2.2) ++
    p.methods.definitions.entries.flatMap (methodWarnings ·.2.2)

end Encode

/-- The partition as a JSON value, or the fault of the first tree that has no text. -/
def Partition.toJson (s : DocumentStyle) (p : Partition) : Warned SigTree.FormatFault Json :=
  ⟨Encode.warnings p, (Encode.document (Encode.latchedTree s) s p).result⟩

end CilCatalog
