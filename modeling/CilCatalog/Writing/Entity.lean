import CilCatalog.Writing.Body

/-!
# Writing types, fields and methods

The three things that can be asked of a writer, each for a level.  The row of an entity is found or made first; above the level of a reference the entity must be a definition and the row one of the module, and what the row says is replaced.
A writer serves one request after the other, and goes on after those that it refuses.  The catalog may be another one each time (`Writer.Request`).
-/

namespace CilCatalog.Writing

open Live (Row TypeId FieldId MethodId)

/-- The elements of `first`, and then those of `current` that are not among them. -/
def reordered {α : Type} [DecidableEq α] (first current : List α) : List α :=
  first ++ current.filter (· ∉ first)

section

variable (c : Catalog)

/-! ### Definition data -/

/-- Replaces what a type definition says, but for its children. -/
def defineType (t : TypeId) (d : TypeData) : Writing Unit := do
  modifyStore (·.modifyType t fun l =>
    { l with attributes := d.attributes.toUInt32, baseType := .null })
  match d.baseType with
  | none      => pure ()
  | some tree =>
      let row ← rowOfTree c tree
      modifyStore (·.modifyType t fun l => { l with baseType := row })
  let interfaces ← rowsOfTrees c d.interfaces
  let genericParams ← genericParams c d.genericParameters
  let customAttributes ← customAttributes c d.customAttributes
  let layout := d.layout.map fun l =>
    (⟨low16 l.packingSize, l.classSize.toUInt32⟩ : Live.ClassLayout)
  modifyStore (·.modifyType t fun l =>
    { l with interfaces, genericParams, customAttributes, layout })

/-- Replaces what a field definition says. -/
def defineField (f : FieldId) (d : FieldData) : Writing Unit := do
  let customAttributes ← customAttributes c d.customAttributes
  modifyStore (·.modifyField f fun l =>
    { l with attributes := low16 d.attributes, initialValue := d.initialValue,
             constant := d.constant, customAttributes })

/-- Replaces what a method definition says.  Without a body in the catalog the method keeps the one it has. -/
def defineMethod (m : MethodId) (d : MethodData) : Writing Unit := do
  modifyStore (·.modifyMethod m fun l =>
    { l with attributes := low16 d.attributes, implAttributes := low16 d.implAttributes })
  let params ← d.parameters.mapM (param c)
  modifyStore (·.modifyMethod m fun l => { l with params })
  match d.body with
  | none   => pure ()
  | some b =>
      let b ← body c b
      modifyStore (·.modifyMethod m fun l => { l with body := some b })
  let overrides ← (d.overrides.getD []).mapM (methodOfToken c)
  modifyStore (·.modifyMethod m fun l => { l with overrides })
  let genericParams ← genericParams c d.genericParameters
  let customAttributes ← customAttributes c d.customAttributes
  let implMap ← d.implMap.mapM fun i => do
    return (⟨← moduleRow i.module, i.name, low16 i.attributes⟩ : Live.ImplMap)
  modifyStore (·.modifyMethod m fun l => { l with genericParams, customAttributes, implMap })

/-! ### Fields and methods -/

/-- Writes a field at a level. -/
def field (e : FieldEntity) (level : Level) : Writing Row := do
  checkLevel .definition level
  let id := e.identity
  let row ← fieldRow c id
  if level ≤ (← writer).fields.level id then return row
  if !e.isDefinition then refuse (.onlyReference "Field" id.name level)
  askable row.isNull
  let .fieldDef f := row
    | refuse (.notInModule "Field" id.name ((← store).image (← writer).image).name)
  let data ← MonadExcept.ofExcept e.requireData
  defineField c f data
  modifyWriter fun w => { w with fields := w.fields.atLevel id .definition }
  return row

/-- Writes a method at a level. -/
def method (e : MethodEntity) (level : Level) : Writing Row := do
  checkLevel .definition level
  let id := e.identity
  let row ← methodRow c id
  if level ≤ (← writer).methods.level id then return row
  if !e.isDefinition then refuse (.onlyReference "Method" id.name level)
  askable row.isNull
  let .methodDef m := row
    | refuse (.notInModule "Method" id.name ((← store).image (← writer).image).name)
  let data ← MonadExcept.ofExcept e.requireData
  defineMethod c m data
  modifyWriter fun w => { w with methods := w.methods.atLevel id .definition }
  return row

/-- Writes the fields under tokens at a level. -/
def fields (ts : List Token) (level : Level) : Writing (List Row) :=
  ts.mapM fun t => do field c (← lookUp c.fields t) level

/-- Writes the methods under tokens at a level. -/
def methods (ts : List Token) (level : Level) : Writing (List Row) :=
  ts.mapM fun t => do method c (← lookUp c.methods t) level

/-! ### Types -/

/-- The type that must be nested in `outer`. -/
def nestedIn (s : Live.Store) (outer : TypeId) (r : Row) : Writing TypeId := do
  let fault := WriteFault.strayChild (s.fullName outer) "nested type" "enclose"
  askable r.isNull
  match r with
  | .typeDef t => if (s.typeDef t).declaring = some outer then return t else refuse fault
  | _          => refuse fault

/-- The field that `t` must declare. -/
def fieldIn (s : Live.Store) (t : TypeId) (r : Row) : Writing FieldId := do
  let fault := WriteFault.strayChild (s.fullName t) "field" "declare"
  askable r.isNull
  match r with
  | .fieldDef f => if (s.fieldDef f).declaring = some t then return f else refuse fault
  | _           => refuse fault

/-- The method that `t` must declare. -/
def methodIn (s : Live.Store) (t : TypeId) (r : Row) : Writing MethodId := do
  let fault := WriteFault.strayChild (s.fullName t) "method" "declare"
  askable r.isNull
  match r with
  | .methodDef m => if (s.methodDef m).declaring = some t then return m else refuse fault
  | _            => refuse fault

/-- Does something with a list that may be absent. -/
def forPresent {α : Type} (list : Option (List α)) (f : List α → Writing Unit) : Writing Unit :=
  match list with
  | none    => pure ()
  | some as => f as

/-- Puts the members of a type, its properties and its events in place. -/
def defineMembers (t : TypeId) (d : TypeData) : Writing Unit := do
  forPresent d.fields fun ts => do
    let rows ← fields c ts .definition
    let fs ← rows.mapM (fieldIn (← store) t)
    modifyStore (·.modifyType t fun l => { l with fields := reordered fs l.fields })
  forPresent d.methods fun ts => do
    let rows ← methods c ts .definition
    let ms ← rows.mapM (methodIn (← store) t)
    modifyStore (·.modifyType t fun l => { l with methods := reordered ms l.methods })
  forPresent d.properties fun ps => do
    let properties ← ps.mapM (property c)
    modifyStore (·.modifyType t fun l => { l with properties })
  forPresent d.events fun es => do
    let events ← es.mapM (event c)
    modifyStore (·.modifyType t fun l => { l with events })

/-- Writes a type at a level; the types nested in it are `depth` deep at most. -/
def typeWithin : Nat → TypeEntity → Level → Writing Row
  | 0,         _, _     => throw .unexplained
  | depth + 1, e, level => do
      checkLevel .withChildren level
      let id := e.identity
      let row ← typeRow id
      let old := (← writer).types.level id
      if level ≤ old then return row
      if !e.isDefinition then refuse (.onlyReference "Type" id.name level)
      askable row.isNull
      let .typeDef t := row
        | refuse (.notInModule "Type" id.name ((← store).image (← writer).image).name)
      let data ← MonadExcept.ofExcept e.requireData
      if old < .definition then
        defineType c t data
        modifyWriter fun w => { w with types := w.types.atLevel id .definition }
      if level = .withChildren then
        forPresent data.nestedTypes fun ts => do
          let rows ← ts.mapM fun n => do typeWithin depth (← lookUp c.types n) level
          let ns ← rows.mapM (nestedIn (← store) t)
          modifyStore (·.modifyType t fun l =>
            { l with nestedTypes := reordered ns l.nestedTypes })
        defineMembers c t data
        modifyWriter fun w => { w with types := w.types.atLevel id .withChildren }
      return row

/-- Writes a type at a level.  Types are not nested deeper than there are types in the catalog. -/
def type (e : TypeEntity) (level : Level) : Writing Row :=
  typeWithin c (c.types.size + 1) e level

/-- Writes the types under tokens at a level. -/
def types (ts : List Token) (level : Level) : Writing (List Row) :=
  ts.mapM fun t => do type c (← lookUp c.types t) level

end

end CilCatalog.Writing

/-! ### Requests -/

namespace CilCatalog.Writer

open Live (Row)

/-- Types, fields and methods are asked for one by one, or as lists of tokens of a catalog. -/
inductive Request where
  | type (e : TypeEntity) (level : Level)
  | field (e : FieldEntity) (level : Level)
  | method (e : MethodEntity) (level : Level)
  | types (ts : List Token) (level : Level)
  | fields (ts : List Token) (level : Level)
  | methods (ts : List Token) (level : Level)

/-- The rows that come of a request that is not refused. -/
def serve (c : Catalog) : Request → Writing (List Row)
  | .type e level     => do return [← Writing.type c e level]
  | .field e level    => do return [← Writing.field c e level]
  | .method e level   => do return [← Writing.method c e level]
  | .types ts level   => Writing.types c ts level
  | .fields ts level  => Writing.fields c ts level
  | .methods ts level => Writing.methods c ts level

end CilCatalog.Writer
