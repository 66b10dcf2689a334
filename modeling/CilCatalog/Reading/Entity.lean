import CilCatalog.Reading.Body

/-!
# Reading types, fields and methods

The three things that can be asked of a reader, each for a level.  A type is registered as a reference first, so that whatever its definition refers to, the type itself included, can get its token; then its definition is, and then its children, which are read as definitions.  What is registered again keeps the token that it has (`ReadingKind.Lawful`), so that only one of the registrations is asked for it.

A reader serves one request after the other, and goes on after those that it refuses (`Reader.Request`).
-/

namespace CilCatalog.Reading

section

variable (s : Live.Store)

/-! ### Definition data -/

/-- The data of a type definition, without its children. -/
def typeData (d : Live.TypeDef) : Reading TypeData := do
  let baseType ← if d.baseType.isNull then pure none else some <$> typeTree s d.baseType
  let interfaces ← typeTrees s d.interfaces
  let genericParameters ← genericParameters s d.genericParams
  let customAttributes ← customAttributes s d.customAttributes
  return {
    attributes := d.attributes.toInt32
    baseType, genericParameters, customAttributes
    interfaces := nonempty interfaces
    layout := d.layout.map fun l => ⟨Int32.ofNat l.packingSize.toNat, l.classSize.toInt32⟩
    nestedTypes := none, fields := none, methods := none, properties := none, events := none }

def fieldData (d : Live.FieldDef) : Reading FieldData := do
  return ⟨Int32.ofNat d.attributes.toNat, d.initialValue, d.constant,
    ← customAttributes s d.customAttributes⟩

def implMap (method : Bytes) (m : Live.ImplMap) : Reading ImplMap :=
  match m.module with
  | .moduleRef _ name => return ⟨m.name, name, Int32.ofNat m.attributes.toNat⟩
  | _                 => refuse (.noNativeModule method)

def methodData (d : Live.MethodDef) : Reading MethodData := do
  let parameters ← d.params.mapM (parameter s)
  let overrides ← d.overrides.mapM (methodToken s)
  let genericParameters ← genericParameters s d.genericParams
  let customAttributes ← customAttributes s d.customAttributes
  let body ← if (← options).methodBodies then d.body.mapM (body s) else pure none
  let implMap ← d.implMap.mapM (implMap d.name)
  return {
    attributes := Int32.ofNat d.attributes.toNat
    implAttributes := Int32.ofNat d.implAttributes.toNat
    overrides := nonempty overrides
    parameters, genericParameters, customAttributes, body, implMap }

/-! ### Fields and methods -/

/-- Reads a field at a level. -/
def field (f : Option Live.FieldId) (level : Level) : Reading Token := do
  let some f := f | refuse (.absent "Field")
  checkLevel .definition level
  let id ← fieldIdentity s f
  let r ← registerField (.reference id) .reference
  if level ≤ r.oldLevel then return r.token
  let data ← fieldData s (s.fieldDef f)
  return (← registerField (.definition id data) .definition).token

/-- Reads a method at a level. -/
def method (m : Option Live.MethodId) (level : Level) : Reading Token := do
  let some m := m | refuse (.absent "Method")
  checkLevel .definition level
  let id ← methodIdentity s m
  let r ← registerMethod (.reference id) .reference
  if level ≤ r.oldLevel then return r.token
  let data ← methodData s (s.methodDef m)
  return (← registerMethod (.definition id data) .definition).token

def fields (fs : List (Option Live.FieldId)) (level : Level) : Reading (List Token) :=
  fs.mapM fun f => field s f level

def methods (ms : List (Option Live.MethodId)) (level : Level) : Reading (List Token) :=
  ms.mapM fun m => method s m level

/-! ### Types -/

/-- Puts the children of a type, given the tokens of its nested types, on record. -/
def children (t : Live.TypeId) (token : Token) (nested : List Token) : Reading Unit := do
  let d := s.typeDef t
  let fields ← fields s (d.fields.map some) .definition
  let methods ← methods s (d.methods.map some) .definition
  let properties ← d.properties.mapM (property s)
  let events ← d.events.mapM (event s)
  match (← get).catalog.types.get token with
  | .error f => refuse (.store f)
  | .ok e    =>
      let data : TypeData ← MonadExcept.ofExcept e.requireData
      let data : TypeData := { data with
        nestedTypes := some nested, fields := some fields, methods := some methods,
        properties := some properties, events := some events }
      let _ ← registerType (.definition e.identity data) .withChildren

/-- Reads a type at a level; the types nested in it are `depth` deep at most. -/
def typeWithin : Nat → Option Live.TypeId → Level → Reading Token
  | 0,         _,      _     => throw .unexplained
  | _ + 1,     none,   _     => refuse (.absent "Type")
  | depth + 1, some t, level => do
      checkLevel .withChildren level
      checkType s t
      let id := definitionIdentity s t
      let r ← registerType (.reference id) .reference
      if level ≤ r.oldLevel then return r.token
      if r.oldLevel < .definition then
        let data ← typeData s (s.typeDef t)
        let _ ← registerType (.definition id data) .definition
      if level ≤ .definition then return r.token
      let nested ← (s.typeDef t).nestedTypes.mapM fun n => typeWithin depth (some n) level
      children s t r.token nested
      return r.token

/-- Reads a type at a level.  Types are not nested deeper than there are types. -/
def type (t : Option Live.TypeId) (level : Level) : Reading Token :=
  typeWithin s (s.typeDefs.length + 1) t level

def types (ts : List (Option Live.TypeId)) (level : Level) : Reading (List Token) :=
  ts.mapM fun t => type s t level

/-- The tree for a type specification. -/
def specification (t : Option Live.TypeSig) : Reading SigTree :=
  match t with
  | none   => refuse (.absent "Type")
  | some t => typeSigTree s t

end

end CilCatalog.Reading

/-! ### Requests -/

namespace CilCatalog.Reader

open Live

/-- Types, fields and methods are asked for one by one or as lists, and what is asked for may be missing. -/
inductive Request where
  | type (t : Option TypeId) (level : Level)
  | field (f : Option FieldId) (level : Level)
  | method (m : Option MethodId) (level : Level)
  | types (ts : List (Option TypeId)) (level : Level)
  | fields (fs : List (Option FieldId)) (level : Level)
  | methods (ms : List (Option MethodId)) (level : Level)
  | specification (t : Option TypeSig)

/-- What comes of a request that is not refused. -/
inductive Answer where
  | token (t : Token)
  | tokens (ts : List Token)
  | tree (t : SigTree)
deriving DecidableEq

def serve (s : Store) : Request → Reading Answer
  | .type t level    => do return .token (← Reading.type s t level)
  | .field f level   => do return .token (← Reading.field s f level)
  | .method m level  => do return .token (← Reading.method s m level)
  | .types ts level  => do return .tokens (← Reading.types s ts level)
  | .fields fs level => do return .tokens (← Reading.fields s fs level)
  | .methods ms level => do return .tokens (← Reading.methods s ms level)
  | .specification t => do return .tree (← Reading.specification s t)

/-- The reader after a request, whatever has come of it. -/
def after (s : Store) (ρ : Reader) (q : Request) : Reader := (serve s q ρ).2

/-- The reader after all of the requests. -/
def afterAll (s : Store) (ρ : Reader) (qs : List Request) : Reader := qs.foldl (after s) ρ

end CilCatalog.Reader
