import CilCatalog.Base64
import CilCatalog.Json.Value
import CilCatalog.Partition
import CilCatalog.SigTree.Parse
import CilCatalog.Warned

/-!
# Reading documents

Reading takes both styles of tokens and trees, side by side if need be.  A member that is null counts as absent, and members that are not asked for are passed over.
-/

namespace CilCatalog

/-- Why a JSON value is no document. -/
inductive DocumentFault where
  | mismatch (what : Bytes) (expected got : String)
  | outOfRange (what : Bytes) (i : Int64)
  | missing (k : Bytes)
  | notBase64 (what : Bytes)
  | badTokenName (name : Bytes)
  | text (f : SigTree.ParseFault)
  | emptyText
  | malformedTree (f : SigTree.FormatFault)
  | namedInteger
  | specArity (got : Nat)
  | operandArity (k : OperandKind) (got : Nat)
  | constantType (code : Int32)
  | slot (f : SlotFault)
  | operandMembers
  | operandTag (tag : Bytes)
  | duplicateReference (part k : Bytes)
  | duplicateDefinition (part k : Bytes)
deriving DecidableEq

namespace DocumentFault

def message : DocumentFault → Bytes
  | mismatch w e g          => "'" ++ w ++ "' must be " ++ e ++ ", got " ++ g
  | outOfRange w i          =>
      "'" ++ w ++ "' is out of range: " ++ Bytes.signedDecimal i.toInt
  | missing k               => "Missing member '" ++ k ++ "'"
  | notBase64 w             => "'" ++ w ++ "' is not valid base64"
  | badTokenName n          => "'" ++ n ++ "' is not a valid token name"
  | text f                  => f.message
  | emptyText               => "Complex type text cannot be empty"
  | malformedTree f         => f.message
  | namedInteger            => "Int32 literal must hold an index"
  | specArity n             => "MethodSpec takes 2 arguments, got " ++ Bytes.decimal n
  | operandArity k n        => k.name ++ " takes 1 argument, got " ++ Bytes.decimal n
  | constantType c          => "Constant type out of range: " ++ Bytes.signedDecimal c.toInt
  | slot f                  => Fault.message f
  | operandMembers          => "Operand must have exactly one member"
  | operandTag t            => "Unknown operand kind '" ++ t ++ "'"
  | duplicateReference p k  => p ++ ": duplicate reference '" ++ k ++ "'"
  | duplicateDefinition p k => p ++ ": duplicate definition '" ++ k ++ "'"

/-- Every fault is bad data, those of texts inside the document being what they are by themselves. -/
def kind : DocumentFault → ErrorKind
  | text f => Fault.kind f
  | _      => .invalidData

instance : Fault DocumentFault where
  kind := kind
  message := message

end DocumentFault

namespace Decode

/-- Reading without warnings. -/
abbrev Read := Except (Failure DocumentFault)

/-- Reading with warnings. -/
abbrev Noted := Warned (Failure DocumentFault)

def fail {α : Type} (f : DocumentFault) : Read α := .error (.fault f)

/-! ### Values of a type -/

/-- A value of another type than the one expected. -/
def mismatch {α : Type} (what : Bytes) (expected : String) (v : Json) : Read α :=
  fail (.mismatch what expected v.typeName)

def object (what : Bytes) : Json → Read (List (Bytes × Json))
  | .object ms => .ok ms
  | v          => mismatch what "an object" v

def elements (what : Bytes) : Json → Read (List Json)
  | .array es => .ok es
  | v         => mismatch what "an array" v

def string (what : Bytes) : Json → Read Bytes
  | .string s => .ok s
  | v         => mismatch what "a string" v

def bool (what : Bytes) : Json → Read Bool
  | .bool b => .ok b
  | v       => mismatch what "a boolean" v

/-- An integer. -/
def int64 (what : Bytes) : Json → Read Int64
  | .int i => .ok i
  | v      => mismatch what "an integer" v

/-- An integer from `low` to `high`. -/
def integer (what : Bytes) (low high : Int) (v : Json) : Read Int64 := do
  let i ← int64 what v
  if i.toInt < low ∨ high < i.toInt then fail (.outOfRange what i) else return i

def int32 (what : Bytes) (v : Json) : Read Int32 := do
  return (← integer what (-0x80000000) 0x7FFFFFFF v).toInt32

def bytes (what : Bytes) (v : Json) : Read Bytes := do
  match Base64.decode (← string what v) with
  | some b => return b
  | none   => fail (.notBase64 what)

/-! ### Members and lists -/

abbrev Members := List (Bytes × Json)

/-- A member that must be present. -/
def required (ms : Members) (k : Bytes) : Read Json :=
  match Json.present? ms k with
  | some v => .ok v
  | none   => fail (.missing k)

def requiredString (ms : Members) (k : Bytes) : Read Bytes := do string k (← required ms k)

def requiredInt32 (ms : Members) (k : Bytes) : Read Int32 := do int32 k (← required ms k)

section Parts

variable {m : Type → Type} [Monad m] [MonadLiftT Read m] {α : Type}

/-- A member that may be absent. -/
def optional (ms : Members) (k : Bytes) (f : Json → m α) : m (Option α) :=
  match Json.present? ms k with
  | some v => do return some (← f v)
  | none   => return none

/-- The elements of an array. -/
def list (what : Bytes) (f : Json → m α) (v : Json) : m (List α) := do
  List.mapM f (← liftM (elements what v))

/-- An array that may be absent. -/
def optionalList (ms : Members) (k : Bytes) (f : Json → m α) : m (Option (List α)) :=
  optional ms k (list k f)

/-- An array that must be present. -/
def requiredList (ms : Members) (k : Bytes) (f : Json → m α) : m (List α) := do
  list k f (← liftM (required ms k))

end Parts

/-! ### Tokens and trees -/

def tokenName (n : Bytes) : Read Token :=
  match Token.ofName n with
  | .ok t    => .ok t
  | .error _ => fail (.badTokenName n)

/-- An index, which is not negative unless it may be. -/
def tokenIndex (negative : Bool) (v : Json) : Read Token := do
  let i ← integer "Index" (if negative then -0x80000000 else 0) 0x7FFFFFFF v
  return .index i.toInt32

/-- A token: an index, a name, or an object that holds either. -/
def anyToken (negative : Bool) : Json → Read Token
  | .int i     => tokenIndex negative (.int i)
  | .string n  => tokenName n
  | .object ms =>
      match Json.present? ms "Index" with
      | some v => tokenIndex negative v
      | none   => do tokenName (← requiredString ms "Name")
  | v          => mismatch "Token" "an integer, a string or an object" v

def token : Json → Read Token := anyToken false

/-- A tree that has to have a text. -/
def checked (t : SigTree) : Read SigTree :=
  match t.format with
  | .ok _    => .ok t
  | .error f => fail (.malformedTree f)

/-- The code of a signature node. -/
def code (ms : Members) : Read UInt8 := do
  return (← integer "Type" 0 255 (← required ms "Type")).toUInt64.toUInt8

/-- The node of kind `k` with the given members and arguments. -/
def node (ms : Members) (as : List SigTree) : NodeKind → Read SigTree
  | .token        => do SigTree.ofToken (← token (← required ms "Token"))
  | .int32        => do
      match ← anyToken true (← required ms "Token") with
      | .index i => return .int32 i
      | .named _ => fail .namedInteger
  | .typeSig      => do checked (.typeSig (← code ms) as)
  | .callSig      => do checked (.callSig (← code ms) as)
  | .methodSpec   =>
      match as with
      | [m, i] => .ok (.methodSpec m i)
      | _      => fail (.specArity as.length)
  | .inlineType   => inline .type as
  | .inlineField  => inline .field as
  | .inlineMethod => inline .method as
where
  /-- The node around the operand of an instruction. -/
  inline (k : OperandKind) : List SigTree → Read SigTree
    | [o] => .ok (.inline k o)
    | as  => fail (.operandArity k as.length)

/-- The kind of a node. -/
def kind (ms : Members) : Read NodeKind := do
  let i ← integer "Kind" 0 7 (← required ms "Kind")
  match NodeKind.ofCode? i.toInt.toNat with
  | some k => return k
  | none   => .error .unexplained

mutual

/-- A tree: a text, or an object with the kind of the node and what that kind asks for. -/
def tree : Json → Read SigTree
  | .string s  =>
      if s.isEmpty then fail .emptyText else Failure.widen .text (SigTree.parse s)
  | .object ms => do
      let k ← kind ms
      let as ← arguments ms
      node ms as k
  | v          => mismatch "ComplexType" "an object" v

/-- The trees in the first member called `Arguments`; there are none if it is absent. -/
def arguments : List (Bytes × Json) → Read (List SigTree)
  | []           => .ok []
  | (k, v) :: ms => if k = utf8 "Arguments" then argumentList v else arguments ms

def argumentList : Json → Read (List SigTree)
  | .array es => trees es
  | .null     => .ok []
  | v         => mismatch "Arguments" "an array" v

def trees : List Json → Read (List SigTree)
  | []      => .ok []
  | e :: es => do
      let t ← tree e
      let ts ← trees es
      return t :: ts

end

def requiredTree (ms : Members) (k : Bytes) : Read SigTree := do tree (← required ms k)

/-! ### Parts of definitions -/

/-- A constant: a string, a slot, or null. -/
def constant (v : Json) : Noted Constant := do
  let ms ← object "Constant" v
  let type ← requiredInt32 ms "Type"
  if type < 0 ∨ 255 < type then fail (.constantType type)
  let code := type.toUInt32.toUInt8
  match Json.present? ms "String", Json.present? ms "Value" with
  | some s, _         => return ⟨code, .string (← string "String" s)⟩
  | none,   some slot =>
      let bits ← int64 "Value" slot
      let value ← (ConstantValue.ofSlot bits code).mapError fun f => .fault (.slot f)
      return ⟨code, value⟩
  | none,   none      => return ⟨code, .null⟩

def customAttribute (v : Json) : Read CustomAttribute := do
  let ms ← object "CustomAttribute" v
  let constructor ← token (← required ms "Constructor")
  let rawData ← bytes "RawData" (← required ms "RawData")
  return ⟨constructor, rawData⟩

def customAttributes (ms : Members) : Read (Option (List CustomAttribute)) :=
  optionalList ms "CustomAttributes" customAttribute

def genericParameter (v : Json) : Read GenericParameter := do
  let ms ← object "GenericParameter" v
  let name ← requiredString ms "Name"
  let attributes ← requiredInt32 ms "Attributes"
  let number ← requiredInt32 ms "Number"
  let constraints ← optionalList ms "Constraints" tree
  return { name, attributes, number, constraints }

def layout (v : Json) : Read ClassLayout := do
  let ms ← object "ClassLayout" v
  let packingSize ← requiredInt32 ms "PackingSize"
  let classSize ← requiredInt32 ms "ClassSize"
  return { packingSize, classSize }

def property (v : Json) : Read Property := do
  let ms ← object "Property" v
  let name ← requiredString ms "Name"
  let signature ← requiredTree ms "Signature"
  let attributes ← requiredInt32 ms "Attributes"
  let getMethod ← optional ms "GetMethod" token
  let setMethod ← optional ms "SetMethod" token
  let customAttributes ← customAttributes ms
  return { name, signature, attributes, getMethod, setMethod, customAttributes }

def event (v : Json) : Read Event := do
  let ms ← object "Event" v
  let name ← requiredString ms "Name"
  let type ← requiredTree ms "Type"
  let attributes ← requiredInt32 ms "Attributes"
  let addMethod ← optional ms "AddMethod" token
  let removeMethod ← optional ms "RemoveMethod" token
  let invokeMethod ← optional ms "InvokeMethod" token
  let customAttributes ← customAttributes ms
  return { name, type, attributes, addMethod, removeMethod, invokeMethod, customAttributes }

def parameter (v : Json) : Noted Parameter := do
  let ms ← object "Parameter" v
  let name ← requiredString ms "Name"
  let sequence ← requiredInt32 ms "Sequence"
  let attributes ← requiredInt32 ms "Attributes"
  let customAttributes ← customAttributes ms
  let constant ← optional ms "Constant" constant
  return { name, sequence, attributes, constant, customAttributes }

/-- A floating-point literal from its slot. -/
def literal (tag : Bytes) (v : Json) (type : ElementType) : Noted Operand := do
  let bits ← int64 tag v
  let value ← (ConstantValue.ofSlot bits type.code).mapError fun f => .fault (.slot f)
  match value with
  | .r4 b => return .single b
  | .r8 b => return .double b
  | _     => Warned.fail .unexplained

/-- An operand of the kind called `tag`. -/
def taggedOperand (tag : Bytes) (v : Json) : Noted Operand :=
  if tag = utf8 "Int32" then do return .int32 (← int32 tag v)
  else if tag = utf8 "Int64" then do return .int64 (← int64 tag v)
  else if tag = utf8 "Single" then literal tag v .r4
  else if tag = utf8 "Double" then literal tag v .r8
  else if tag = utf8 "String" then do return .string (← string tag v)
  else if tag = utf8 "Switch" then do
    let ns : List Int32 ← (list tag (int32 tag) v : Read _)
    return .targets ns
  else if tag = utf8 "Type" then do return .tree (← tree v)
  else Warned.fail (.fault (.operandTag tag))

def operand (v : Json) : Noted Operand := do
  match ← object "Operand" v with
  | [(tag, v)] => taggedOperand tag v
  | _          => Warned.fail (.fault .operandMembers)

def instruction (v : Json) : Noted Instruction := do
  let ms ← object "Instruction" v
  let opcode ← requiredString ms "OpCode"
  let operand ← optional ms "Operand" operand
  return { opcode, operand }

def handler (v : Json) : Read ExceptionHandler := do
  let ms ← object "ExceptionHandler" v
  let tryStart ← requiredInt32 ms "TryStart"
  let tryEnd ← requiredInt32 ms "TryEnd"
  let filterStart ← requiredInt32 ms "FilterStart"
  let handlerStart ← requiredInt32 ms "HandlerStart"
  let handlerEnd ← requiredInt32 ms "HandlerEnd"
  let catchType ← optional ms "CatchType" tree
  let handlerType ← requiredInt32 ms "HandlerType"
  return { tryStart, tryEnd, filterStart, handlerStart, handlerEnd, catchType, handlerType }

def body (v : Json) : Noted MethodBody := do
  let ms ← object "Body" v
  let instructions ← requiredList ms "Instructions" instruction
  let handlers ← (requiredList ms "ExceptionHandlers" handler : Read _)
  let locals ← (requiredList ms "Variables" tree : Read _)
  let maxStack ← requiredInt32 ms "MaxStack"
  let initLocals ← bool "InitLocals" (← required ms "InitLocals")
  return { instructions, handlers, locals, maxStack, initLocals }

def implMap (v : Json) : Read ImplMap := do
  let ms ← object "ImplMap" v
  let name ← requiredString ms "Name"
  let module ← requiredString ms "Module"
  let attributes ← requiredInt32 ms "Attributes"
  return { name, module, attributes }

/-! ### Entities -/

def typeIdentity (ms : Members) : Read TypeIdentity := do
  let name ← requiredString ms "Name"
  let ns ← requiredString ms "Namespace"
  let assembly ← optional ms "Assembly" (string "Assembly")
  let enclosing ← optionalList ms "EnclosingNames" (string "EnclosingNames")
  return { name, ns, assembly, enclosing }

def memberIdentity (ms : Members) : Read MemberIdentity := do
  let name ← requiredString ms "Name"
  let type ← requiredTree ms "Type"
  let signature ← requiredTree ms "Signature"
  return { name, type, signature }

def genericParameters (ms : Members) : Read (Option (List GenericParameter)) :=
  optionalList ms "GenericParameters" genericParameter

def typeData (ms : Members) : Read TypeData := do
  let attributes ← requiredInt32 ms "Attributes"
  let baseType ← optional ms "BaseType" tree
  let interfaces ← optionalList ms "Interfaces" tree
  let genericParameters ← genericParameters ms
  let customAttributes ← customAttributes ms
  let nestedTypes ← optionalList ms "NestedTypes" token
  let fields ← optionalList ms "Fields" token
  let methods ← optionalList ms "Methods" token
  let properties ← optionalList ms "Properties" property
  let events ← optionalList ms "Events" event
  let layout ← optional ms "ClassLayout" layout
  return { attributes, baseType, interfaces, layout, genericParameters, customAttributes,
           nestedTypes, fields, methods, properties, events }

def fieldData (ms : Members) : Noted FieldData := do
  let attributes ← requiredInt32 ms "Attributes"
  let customAttributes ← customAttributes ms
  let initialValue ← (optional ms "InitialValue" (bytes "InitialValue") : Read _)
  let constant ← optional ms "Constant" constant
  return { attributes, initialValue, constant, customAttributes }

def methodData (ms : Members) : Noted MethodData := do
  let attributes ← requiredInt32 ms "Attributes"
  let implAttributes ← requiredInt32 ms "ImplAttributes"
  let parameters ← requiredList ms "Parameters" parameter
  let overrides ← (optionalList ms "Overrides" token : Read _)
  let genericParameters ← genericParameters ms
  let customAttributes ← customAttributes ms
  let body ← optional ms "Body" body
  let implMap ← (optional ms "ImplMap" implMap : Read _)
  return { attributes, implAttributes, parameters, body, overrides, implMap, genericParameters,
           customAttributes }

def typeReference (v : Json) : Noted TypeIdentity := do
  let ms ← object "Type" v
  typeIdentity ms

def memberReference (what : Bytes) (v : Json) : Noted MemberIdentity := do
  let ms ← object what v
  memberIdentity ms

def typeDefinition (v : Json) : Noted (TypeIdentity × TypeData) := do
  let ms ← object "Type" v
  let id ← typeIdentity ms
  let data ← typeData ms
  return (id, data)

def fieldDefinition (v : Json) : Noted (MemberIdentity × FieldData) := do
  let ms ← object "Field" v
  let id ← memberIdentity ms
  let data ← fieldData ms
  return (id, data)

def methodDefinition (v : Json) : Noted (MemberIdentity × MethodData) := do
  let ms ← object "Method" v
  let id ← memberIdentity ms
  let data ← methodData ms
  return (id, data)

/-! ### Documents -/

/-- Adds the values of members under their names, none of which may occur twice. -/
def addMembers {α : Type} (repeated : Bytes → DocumentFault) (f : Json → Noted α) :
    Members → Keyed α → Noted (Keyed α)
  | [],           m => return m
  | (k, v) :: ms, m => do
      let a ← f v
      match m.add? k a with
      | some m => addMembers repeated f ms m
      | none   => Warned.fail (.fault (repeated k))

/-- The members of an object that may be absent. -/
def keyed {α : Type} (ms : Members) (k : Bytes) (repeated : Bytes → DocumentFault)
    (f : Json → Noted α) : Noted (Keyed α) :=
  match Json.present? ms k with
  | none   => return .empty
  | some v => do addMembers repeated f (← object k v) .empty

/-- The section called `name`. -/
def part {ι δ : Type} (root : Members) (name : Bytes) (reference : Json → Noted ι)
    (definition : Json → Noted (ι × δ)) : Noted (PartitionSection ι δ) := do
  let ms ← object name (← required root name)
  let references ← keyed ms "References" (.duplicateReference name) reference
  let definitions ← keyed ms "Definitions" (.duplicateDefinition name) definition
  let turns ← (optionalList ms "Orders" (int32 "Orders") : Read _)
  return { references, definitions, turns := turns.getD [] }

def document (v : Json) : Noted Partition := do
  let root ← object "document" v
  let options ← integer "Options" 0 15 (← required root "Options")
  let types ← part root "Types" typeReference typeDefinition
  let fields ← part root "Fields" (memberReference "Field") fieldDefinition
  let methods ← part root "Methods" (memberReference "Method") methodDefinition
  return ⟨⟨options.toUInt64.toUInt32⟩, types, fields, methods⟩

end Decode

/-- The partition that a JSON value describes. -/
def Partition.ofJson (v : Json) : Warned (Failure DocumentFault) Partition := Decode.document v

end CilCatalog
