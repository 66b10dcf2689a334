import CilCatalog.Partition
import CilCatalog.Registry
import CilCatalog.Trial

/-!
# Trials of catalogs

Token maps of both flavours, registration at different levels and the names it makes, comparisons, and partitions.  What is tried is mostly one of two catalogs with whatever options are asked for: an *outline*, which has two type references, a type definition between them and a method reference, and a *program*, whose one class has a field and a method with a body.

A recording of entities never touches the options, so the outline and the program have those that were asked for.  Whether a catalog comes back from a partition is decided by the trial of it for every catalog and every partition.
-/

namespace CilCatalog.Trial.Sample

open SigTree (ofElement ofConvention)

/-! ### Entities -/

/-- A type that is not nested. -/
def typeNamed (ns name : Bytes) (assembly : Option Bytes) : TypeIdentity :=
  ⟨name, ns, assembly, none⟩

/-- A reference to a type that is not nested. -/
def typeReference (ns name : Bytes) (assembly : Option Bytes) : TypeEntity :=
  .reference (typeNamed ns name assembly)

/-- A public class without members. -/
def plainClass : TypeData := { attributes := 0x00100001, baseType := some (ofElement .object) }

/-- The definition of a class that is not nested. -/
def classDefinition (ns name : Bytes) : TypeEntity :=
  .definition (typeNamed ns name none) plainClass

/-- A static method of a type, that takes one argument and writes a line. -/
def writeLine (type : Token) (param : ElementType) : MemberIdentity :=
  ⟨"WriteLine", .token type,
    ofConvention .standard [.int32 0, .int32 1, ofElement .void, ofElement param]⟩

/-! ### Recording -/

/-- A computation that registers entities. -/
abbrev Recording := StateT (Registry × Catalog) (Except RegistryFault)

/-- Registers an entity and gives its token. -/
def record
    (register : Registry → Catalog → Except RegistryFault (Registered × Registry × Catalog)) :
    Recording Token := fun (r, c) => do
  let (u, r, c) ← register r c
  return (u.token, r, c)

def recordType (e : TypeEntity) (level : Level) : Recording Token :=
  record fun r c => r.registerType c e level

def recordField (e : FieldEntity) (level : Level) : Recording Token :=
  record fun r c => r.registerField c e level

def recordMethod (e : MethodEntity) (level : Level) : Recording Token :=
  record fun r c => r.registerMethod c e level

/-- The catalog that is there after a recording. -/
def catalogOf (m : Recording Unit) (o : Options) : Except RegistryFault Catalog := do
  let (_, _, c) ← m.run (.empty, .empty o)
  return c

/-- Whatever is recorded, the catalog keeps its options. -/
def KeepsOptions {α : Type} (m : Recording α) : Prop :=
  ∀ before a after, m before = .ok (a, after) → after.2.options = before.2.options

theorem KeepsOptions.bind {α β : Type} {m : Recording α} {f : α → Recording β}
    (h : KeepsOptions m) (k : ∀ a, KeepsOptions (f a)) : KeepsOptions (m >>= f) := by
  intro before b after hb
  obtain ⟨⟨a, between⟩, ha, hf⟩ := bind_eq_ok.1 hb
  exact (k a _ _ _ hf).trans (h _ _ _ ha)

theorem keepsOptions_pure {α : Type} (a : α) : KeepsOptions (pure a) := fun _ _ _ h => by
  cases h
  rfl

theorem keepsOptions_record
    {register : Registry → Catalog → Except RegistryFault (Registered × Registry × Catalog)}
    (h : ∀ r c u, register r c = .ok u → u.2.2.options = c.options) :
    KeepsOptions (record register) := by
  intro before t after ha
  obtain ⟨u, hu, ha⟩ := bind_eq_ok.1 ha
  cases ha
  exact h _ _ _ hu

/-- A registration puts one of the three maps in its place. -/
theorem options_of_registration {α : Type} {x : Except RegistryFault α} {c : Catalog}
    {f : α → Registered × Registry × Catalog} {u : Registered × Registry × Catalog}
    (hf : ∀ a, (f a).2.2.options = c.options) (h : (do return f (← x)) = .ok u) :
    u.2.2.options = c.options := by
  obtain ⟨a, -, h⟩ := bind_eq_ok.1 h
  cases h
  exact hf a

theorem keepsOptions_recordType (e : TypeEntity) (level : Level) :
    KeepsOptions (recordType e level) :=
  keepsOptions_record fun _ _ _ h => options_of_registration (fun _ => rfl) h

theorem keepsOptions_recordField (e : FieldEntity) (level : Level) :
    KeepsOptions (recordField e level) := by
  refine keepsOptions_record fun r c u h => ?_
  unfold Registry.registerField at h
  split at h
  · cases h
  · exact options_of_registration (fun _ => rfl) h

theorem keepsOptions_recordMethod (e : MethodEntity) (level : Level) :
    KeepsOptions (recordMethod e level) := by
  refine keepsOptions_record fun r c u h => ?_
  unfold Registry.registerMethod at h
  split at h
  · cases h
  · exact options_of_registration (fun _ => rfl) h

/-- A catalog that is recorded from nothing has the options asked for. -/
theorem options_catalogOf {m : Recording Unit} (hm : KeepsOptions m) {o : Options} {c : Catalog}
    (h : catalogOf m o = .ok c) : c.options = o := by
  obtain ⟨⟨_, r, c'⟩, hr, h⟩ := bind_eq_ok.1 h
  cases h
  exact hm _ _ _ hr

/-! ### The outline -/

def recordOutline : Recording Unit := do
  let _ ← recordType (typeReference "System" "Object" (some "mscorlib")) .reference
  let program := { plainClass with fields := some [] }
  let _ ← recordType (.definition (typeNamed "App" "Program" none) program) .withChildren
  let console ← recordType (typeReference "System" "Console" (some "mscorlib")) .reference
  let _ ← recordMethod (.reference (writeLine console .string)) .reference

/-- The outline. -/
def outline (o : Options) : Except RegistryFault Catalog := catalogOf recordOutline o

theorem options_outline {o : Options} {c : Catalog} (h : outline o = .ok c) : c.options = o :=
  options_catalogOf ((keepsOptions_recordType _ _).bind fun _ =>
    (keepsOptions_recordType _ _).bind fun _ => (keepsOptions_recordType _ _).bind fun _ =>
      (keepsOptions_recordMethod _ _).bind fun _ => keepsOptions_pure ()) h

/-! ### The program -/

/-- A static field of 32-bit floating-point type, which is no number and carries a payload. -/
def nanField (program : Token) : FieldEntity :=
  .definition
    ⟨"Nan", .token program, ofConvention .field [.int32 0, ofElement .r4]⟩
    { attributes := 0x8056, constant := some ⟨ElementType.r4.code, .r4 0x7FC01234⟩ }

/-- A body with an operand of almost every kind, and a protected region. -/
def mainBody (object nan : Token) : MethodBody where
  maxStack := 8
  initLocals := true
  locals := [ofElement .r8]
  instructions := [
    { opcode := "ldc.r8", operand := some (.double 0x7FF8000000001234) },
    { opcode := "stloc.0" },
    { opcode := "ldstr", operand := some (.string "hello \"world\"") },
    { opcode := "pop" },
    { opcode := "ldc.i8", operand := some (.int64 (-1)) },
    { opcode := "switch", operand := some (.targets [0, 7]) },
    { opcode := "ldsfld", operand := some (.tree (.inline .field (.token nan))) },
    { opcode := "ret" }]
  handlers := [{
    tryStart := 0, tryEnd := 2, filterStart := ExceptionHandler.absent
    handlerStart := 2, handlerEnd := 4
    catchType := some (.token object), handlerType := 0 }]

def mainMethod (program object nan : Token) : MethodEntity :=
  .definition
    ⟨"Main", .token program,
      ofConvention .standard [.int32 0, .int32 1, ofElement .void, ofElement .string]⟩
    { attributes := 0x0096
      parameters := [{ name := "args", sequence := 1, attributes := 0 }]
      customAttributes := some []
      body := some (mainBody object nan) }

def recordProgram : Recording Unit := do
  let runtime := "System.Runtime, Version=8.0.0.0, Culture=neutral, PublicKeyToken=b03f5f7f11d50a3a"
  let object ← recordType (typeReference "System" "Object" (some runtime)) .reference
  let id := typeNamed "App" "Program" none
  let program ← recordType (.reference id) .reference
  let nan ← recordField (nanField program) .definition
  let main ← recordMethod (mainMethod program object nan) .definition
  let data : TypeData := {
    attributes := 0x00100000
    baseType := some (ofElement .cls [.token object])
    genericParameters := some [⟨"T", 0, 0, some []⟩]
    fields := some [nan]
    methods := some [main] }
  let _ ← recordType (.definition id data) .withChildren

/-- The program. -/
def program (o : Options) : Except RegistryFault Catalog := catalogOf recordProgram o

theorem options_program {o : Options} {c : Catalog} (h : program o = .ok c) : c.options = o :=
  options_catalogOf ((keepsOptions_recordType _ _).bind fun _ =>
    (keepsOptions_recordType _ _).bind fun _ => (keepsOptions_recordField _ _).bind fun _ =>
      (keepsOptions_recordMethod _ _).bind fun _ => (keepsOptions_recordType _ _).bind fun _ =>
        keepsOptions_pure ()) h

end CilCatalog.Trial.Sample

namespace CilCatalog.Trial.Catalogs

open SigTree (ofElement ofConvention)
open Sample (typeNamed typeReference plainClass classDefinition writeLine)

/-- A name that a token can have. -/
def named (name : Bytes) : Trial Token := present (Token.ofName name).toOption

/-- The options of a catalog with names as tokens and nothing else. -/
def namesOnly : Options := ⟨1⟩

/-- A field known by nothing but its name. -/
def fieldNamed (name : Bytes) : FieldEntity := .reference ⟨name, default, default⟩

/-- A reference to a type of the module at hand. -/
def localType (ns name : Bytes) : TypeEntity := typeReference ns name none

/-! ### Token maps -/

def indexedMaps : Trial Unit := do
  let c := Catalog.empty .default
  expect (!c.options.namedTokens) "default options should use indexed tokens"
  let object := typeReference "System" "Object" (some "mscorlib")
  let some types ← value (c.types.add (.index 0) object) | return
  expect (types.size == 1) ("expected 1 type, got " ++ Bytes.decimal types.size)
  let string := localType "System" "String"
  refused (types.add (.index 0) string) .invalidArgument
  refused (types.add (.index 5) string) .invalidArgument
  refused (types.add (← named "String") string) .invalidArgument
  refused (types.get (.index 1)) .invalidArgument
  if let some e ← value (types.get (.index 0)) then
    expect (e.name == utf8 "Object") "wrong entity under token 0"
  let some types ← value (types.set (.index 0) (classDefinition "System" "Object")) | return
  if let some e ← value (types.get (.index 0)) then
    expect e.isDefinition "entry was not replaced"

def namedMaps : Trial Unit := do
  let c := Catalog.empty namesOnly
  let some a ← value (Token.ofName "A::x") | return
  let some b ← value (Token.ofName "A::y") | return
  let some fields ← value (c.fields.add a (fieldNamed "x")) | return
  let some fields ← value (fields.add b (fieldNamed "y")) | return
  refused (fields.add a (fieldNamed "y")) .invalidArgument
  refused (fields.add (.index 7) (fieldNamed "y")) .invalidArgument
  expect (fields.contains b && !fields.contains (.index 0)) "lookup by name"
  expect (fields.keys == [a, b]) "fields are not in insertion order"

/-! ### Registration -/

/-- A reference that is later defined with children keeps its token, and no lower level is put on record again. -/
def upgrades : Trial Unit := do
  let c := Catalog.empty .default
  let foo := localType "Bar" "Foo"
  let some (ref, r, c) ← value (Registry.empty.registerType c foo .reference) | return
  expect (ref.token == .index 0) ("expected token 0, got " ++ ref.token.text)
  expect (ref.oldLevel == .reference) "a new entity reports the requested level"
  let data := { plainClass with fields := some [], methods := some [] }
  let definition : TypeEntity := .definition foo.identity data
  let some (up, r, c) ← value (r.registerType c definition .withChildren) | return
  expect (up.token == .index 0) ("token changed to " ++ up.token.text)
  expect (up.oldLevel == .reference)
    ("expected old level Reference, got " ++ utf8 up.oldLevel.name)
  expect (c.types.size == 1) "upgrade added an entity"
  if let some stored ← value (c.types.get (.index 0)) then
    expect (Comparison.full.types stored definition) "stored value is not the definition"
  if let some (again, _, c) ← value (r.registerType c foo .reference) then
    expect (again.oldLevel == .withChildren) ("level was lowered to " ++ utf8 again.oldLevel.name)
    if let some e ← value (c.types.get (.index 0)) then
      expect e.isDefinition "definition was replaced by a reference"

/-- Expects a token to have a given text. -/
def hasName (t : Token) (name : Bytes) : Trial Unit := expect (t.text == name) ("got " ++ t.text)

def memberNames : Trial Unit := do
  let c := Catalog.empty namesOnly
  let line (type : Token) (param : ElementType) : MethodEntity := .reference (writeLine type param)
  let some (a, r, c) ← value (Registry.empty.registerType c (localType "" "TypeA") .reference)
    | return
  let some (b, r, c) ← value (r.registerType c (localType "" "TypeB") .reference) | return
  let some (m₁, r, c) ← value (r.registerMethod c (line a.token .string) .reference) | return
  let some (m₂, r, c) ← value (r.registerMethod c (line b.token .string) .reference) | return
  let some (m₃, r, c) ← value (r.registerMethod c (line a.token .i4) .reference) | return
  hasName m₁.token "TypeA::WriteLine"
  hasName m₂.token "TypeB::WriteLine"
  hasName m₃.token "TypeA::WriteLine_2"
  let some (again, _, c) ← value (r.registerMethod c (line a.token .i4) .reference) | return
  expect (again.token == m₃.token) ("duplicate got a new token " ++ again.token.text)
  expect (c.methods.size == 3) ("expected 3 methods, got " ++ Bytes.decimal c.methods.size)

def typeNames : Trial Unit := do
  let c := Catalog.empty namesOnly
  let some (x, r, c) ← value (Registry.empty.registerType c (localType "A" "List`1") .reference)
    | return
  let some (y, r, c) ← value (r.registerType c (localType "B" "List`1") .reference) | return
  let some (z, _, _) ← value (r.registerType c (localType "C" "Odd(Name)") .reference) | return
  hasName x.token "List`1"
  hasName y.token "List`1_2"
  hasName z.token "Odd_Name_"

/-- A field of an instance of a generic type is named after the generic type; one of a primitive type has no type to be named after. -/
def genericNames : Trial Unit := do
  let c := Catalog.empty namesOnly
  let list := typeReference "System.Collections.Generic" "List`1" (some "mscorlib")
  let some (list, r, c) ← value (Registry.empty.registerType c list .reference) | return
  let i4 := ofElement .i4
  let items (type : SigTree) : FieldEntity :=
    .reference ⟨"_items", type, ofConvention .field [.int32 0, i4]⟩
  let lists := ofElement .genericInst [ofElement .cls [.token list.token], .int32 1, i4]
  let registered := r.registerField c (items lists) .reference
  if let some (u, _, _) ← value registered then hasName u.token "List`1<?>::_items"
  refused (r.registerField c (items i4) .reference) .invalidArgument

def levels : Trial Unit := do
  let c := Catalog.empty .default
  let r := Registry.empty
  refused (r.registerType c (localType "" "T") .definition) .invalidArgument
  refused (r.registerField c (.definition ⟨"f", default, default⟩ {}) .withChildren)
    .invalidArgument
  refused (r.registerMethod c (.definition ⟨"m", default, default⟩ {}) .withChildren)
    .invalidArgument
  expect (c.fields.size == 0 && c.methods.size == 0) "failed updates added entities"

/-- What is in the catalog from the start is on record. -/
def knownEntities : Trial Unit := do
  let c := Catalog.empty .default
  let some types ← value (c.types.add (.index 0) (classDefinition "N" "Known")) | return
  let c := { c with types }
  let known := (Registry.ofCatalog c).registerType c (localType "N" "Known") .reference
  let some (u, _, _) ← value known | return
  expect (u.token == .index 0) ("existing entity got a new token " ++ u.token.text)
  expect (u.oldLevel == .definition) ("expected Definition, got " ++ utf8 u.oldLevel.name)

/-! ### Comparison -/

/-- A method whose body pushes a floating-point number. -/
def pushing (bits : UInt64) : MethodEntity :=
  .definition ⟨"M", default, default⟩ {
    body := some {
      instructions := [{ opcode := "ldc.r8", operand := some (.double bits) }]
      handlers := [], locals := [], maxStack := 0, initLocals := false } }

def comparisons : Trial Unit := do
  let id := typeNamed "N" "T" none
  let ref : TypeEntity := .reference id
  let definition := classDefinition "N" "T"
  let (reference, full) := (Comparison.reference, Comparison.full)
  expect (reference.types ref definition) "reference comparer should ignore definition data"
  expect (!full.types ref definition)
    "full comparer should tell a reference from a definition"
  expect (IdentityHash.typeIdentity hash ref.identity ==
    IdentityHash.typeIdentity hash definition.identity) "hash depends on definition data"
  let listed := { id with enclosing := some [] }
  expect (reference.typeIdentity id listed)
    "reference comparer should treat an absent list as empty"
  expect (!full.typeIdentity id listed)
    "full comparer should tell an absent list from an empty one"
  let other : TypeEntity := .definition id { plainClass with attributes := 0 }
  expect (reference.types definition other && !full.types definition other)
    "attributes comparison"
  expect (!reference.typeIdentity id (typeNamed "N" "T" (some "mscorlib")))
    "assembly is part of the identity"
  let nan := pushing 0x7FF8000000001234
  expect (full.methods nan nan) "NaN operands should compare equal"
  expect (!full.methods nan (pushing 0x7FF8000000000001))
    "different NaN payloads should differ"

/-! ### Partitions -/

/-- The outline, which can always be recorded. -/
def outline (o : Options) : Trial Catalog :=
  match Sample.outline o with
  | .ok c    => pure c
  | .error _ => throw (some (utf8 "Failed to build sample metadata"))

/-- Expects a catalog to come back from a partition. -/
def comesBackFrom (p : Partition) (c : Catalog) : Trial Unit := do
  if let some back ← value p.toCatalog then sameCatalog c back

theorem decides_comesBackFrom (p : Partition) (c : Catalog) :
    Decides (comesBackFrom p c) (p.toCatalog = .ok c) := by
  refine (decides_value (p := (c = ·)) (comes_except p.toCatalog)
    (fun back _ => decides_sameCatalog c back) decides_pure).congr ?_
  simp

/-- Expects the outline to come back from its partition. -/
def comesBack (o : Options) : Trial Unit := do
  let c ← outline o
  let p ← certain (Partition.ofCatalog c)
  expect (p.options == o) "options were not carried over"
  expect (p.types.references.size == 2 && p.types.definitions.size == 1) "types were not split"
  if o.namedTokens then expect (p.types.turns == [1, 2]) "wrong orders"
  else expect p.types.turns.isEmpty "indexed facades have no orders"
  comesBackFrom p c

def partitions : Trial Unit := do
  comesBack .default
  comesBack Options.default.withNamedTokens

def badTurns : Trial Unit := do
  let p ← certain (Partition.ofCatalog (← outline Options.default.withNamedTokens))
  refused { p with types := { p.types with turns := [0] } }.toCatalog .invalidData
  let p ← certain (Partition.ofCatalog (← outline .default))
  let method : MemberIdentity × MethodData := (⟨[], default, default⟩, {})
  let definitions ← present (p.methods.definitions.add? "1" method)
  let methods := { p.methods with references := .empty, definitions }
  refused { p with methods }.toCatalog .invalidData

/-- All of these. -/
def suite : TrialSuite := [
  ⟨"Indexed token maps", indexedMaps⟩,
  ⟨"Named token maps", namedMaps⟩,
  ⟨"Upgrade a reference", upgrades⟩,
  ⟨"Named member tokens", memberNames⟩,
  ⟨"Named type tokens", typeNames⟩,
  ⟨"Generic declaring type", genericNames⟩,
  ⟨"Invalid levels", levels⟩,
  ⟨"Seeded updater", knownEntities⟩,
  ⟨"Comparers", comparisons⟩,
  ⟨"Facade round trip", partitions⟩,
  ⟨"Facade with bad orders", badTurns⟩]

end CilCatalog.Trial.Catalogs
