import CilCatalog.Reading.Entity
import CilCatalog.Trial.Documents
import CilCatalog.Trial.Trees
import CilCatalog.Writing.Entity

/-!
# Trials of live modules, readers and writers

What trials put into a live module is a *sample*: a class with a nested class, a field, a property, and three methods.  One method has a protected region, and one has a signature with a parameter of almost every shape.  The trials are of the sample itself, of what a reader records of it under different options and what a reader refuses, of a module that is read, written and read again, of what writing something twice does and what a writer refuses, and of how its questions are answered.

What a trial decides that expects a reading or a writing to be refused is settled for all of them, whatever state they start from, and so is which rows are taken for type definitions.  With the trials of live modules the suites are complete; they are put together at the end.
-/

namespace CilCatalog.Trial

open Live (Store ImageId Row TypeId FieldId MethodId TypeSig CallSig OpCode)

/-- Rows of the sample module. -/
structure SampleImage where
  object : Row
  console : Row
  program : TypeId
  inner : TypeId
  count : FieldId
  getCount : MethodId
  main : MethodId
  shapes : MethodId

namespace SampleImage

/-- The display name of the assembly that the sample refers to. -/
def mscorlib : Bytes := "mscorlib, Version=4.0.0.0, Culture=neutral, PublicKeyToken=b77a5c561934e089"

/-! ### Signatures -/

def i4 : TypeSig := .leaf .i4 rfl

def string : TypeSig := .leaf .string rfl

def void : TypeSig := .leaf .void rfl

/-- The signature of a static method. -/
def static (ret : TypeSig) (params : List TypeSig) : CallSig :=
  .method CallingConvention.standard.code (by decide) 0 ret params []

/-- The signature of a method that is called on an instance. -/
def onInstance (ret : TypeSig) : CallSig :=
  .method CallingConvention.hasThisFlag (by decide) 0 ret [] []

/-- The signature of a property of an instance. -/
def instanceProperty (type : TypeSig) : CallSig :=
  .method (CallingConvention.property.code ||| CallingConvention.hasThisFlag) (by decide) 0 type
    [] []

/-- A method that takes an integer and gives one. -/
def callback : CallSig := static i4 [i4]

/-- The signature of a generic method with a parameter of almost every shape. -/
def shapesSig (isVolatile list : Row) (inner : TypeId) : CallSig :=
  let t := TypeSig.generic true 0
  .method CallingConvention.genericFlag (by decide) 1 t [
    .wrapper .ptr i4,
    .wrapper .byRef string,
    .fnPtr callback,
    .array (.leaf .r8 rfl) 2 [4] [0, -1],
    .valueArray (.leaf .i2 rfl) 16,
    .modifier true isVolatile i4,
    .module 1 (.named true (.typeDef inner)),
    .genericInst (.named false list) [t]] []

/-! ### Bodies -/

/-- Instructions by name; what is no opcode is left out. -/
def instructions (is : List (String × Live.Operand)) : List Live.Instruction :=
  is.filterMap fun (name, operand) => (OpCode.ofName? name).map fun op => ⟨op, operand⟩

def getCountBody (count : FieldId) : Live.MethodBody where
  instructions := instructions [
    ("ldarg.0", .none),
    ("ldfld", .row (.fieldDef count)),
    ("ret", .none)]

/-- A body with a region that is left through a handler that is always run. -/
def mainBody (writeLine : Row) : Live.MethodBody where
  instructions := instructions [
    ("ldstr", .string "Hello"),
    ("call", .row writeLine),
    ("ldc.i4.s", .int32 5),
    ("stloc.s", .variable (some 0)),
    ("leave.s", .target (.inside 7)),
    ("nop", .none),
    ("endfinally", .none),
    ("ret", .none)]
  handlers := [{
    tryStart := .inside 0, tryEnd := .inside 5
    handlerStart := .inside 5, handlerEnd := .inside 7
    handlerType := 2 }]
  locals := [i4]

/-- A body that calls an instance of the method itself, and a function by pointer. -/
def shapesBody (inner : TypeId) (instantiated : Row) : Live.MethodBody where
  instructions := instructions [
    ("ldarg.s", .argument 0),
    ("ldloca.s", .variable (some 0)),
    ("ldtoken", .row (.typeDef inner)),
    ("call", .row instantiated),
    ("ldnull", .none),
    ("calli", .signature callback),
    ("ret", .none)]
  locals := [.wrapper .pinned (.wrapper .byRef (.leaf .u1 rfl))]

/-! ### The module -/

/-- Puts the sample into a module. -/
def build (i : ImageId) : StateM Store SampleImage := do
  let assembly ← modifyGet (·.createAssemblyRef i (.ofText mscorlib))
  let typeRef (ns name : Bytes) : StateM Store Row := modifyGet (·.addTypeRef i ns name assembly)
  let memberRef (name : Bytes) (signature : CallSig) (parent : Row) : StateM Store Row :=
    modifyGet (·.createMemberRef i name signature parent)
  let object ← typeRef "System" "Object"
  let console ← typeRef "System" "Console"
  let serializable ← typeRef "System" "SerializableAttribute"
  let writeLine ← memberRef "WriteLine" (static void [string]) console
  let constructor ← memberRef ".ctor" (onInstance void) serializable
  let program ← modifyGet (·.createType i "App" "Program")
  let inner ← modifyGet (·.createNestedType i [] "Inner" program)
  modify (·.modifyType inner fun d => { d with attributes := 0x00100002, baseType := object })
  let count ← modifyGet (·.createField program {
    name := "count", signature := .field i4, attributes := 0x0001
    constant := some ⟨ElementType.i4.code, .i4 42⟩ })
  let getCount ← modifyGet (·.createMethod program {
    name := "get_Count", signature := onInstance i4, attributes := 0x0886
    body := some (getCountBody count) })
  let property : Live.PropertyDef :=
    { name := "Count", signature := instanceProperty i4, getMethod := some getCount }
  modify (·.modifyType program fun d => { d with
    attributes := 0x00102001, baseType := object, properties := [property]
    customAttributes := [⟨constructor, [0x01, 0x00, 0x00, 0x00]⟩] })
  let main ← modifyGet (·.createMethod program {
    name := "Main", signature := static void [.wrapper .szArray string], attributes := 0x0096
    params := [{ name := "args", sequence := 1 }], body := some (mainBody writeLine) })
  let isVolatile ← typeRef "System.Runtime.CompilerServices" "IsVolatile"
  let list ← typeRef "System.Collections.Generic" "List`1"
  let shapes ← modifyGet (·.createMethod program {
    name := "Shapes", signature := shapesSig isVolatile list inner, attributes := 0x0096
    genericParams := [{ name := "T", number := 0 }] })
  let instantiated ← modifyGet (·.createMethodSpec (.methodDef shapes) (.inst [i4]))
  modify (·.modifyMethod shapes fun d => { d with body := some (shapesBody inner instantiated) })
  return ⟨object, console, program, inner, count, getCount, main, shapes⟩

end SampleImage

end CilCatalog.Trial

namespace CilCatalog.Trial

/-! ### Readings and writings -/

section

variable {σ φ α : Type}

/-- What a reading or a writing comes to, and the state after it. -/
def outcome (s : σ) (m : ExceptT (Failure φ) (StateM σ) α) : Except (Failure φ) α × σ :=
  StateT.run (ExceptT.run m) s

variable [Fault φ]

/-- Expects a reading or a writing to be refused, and gives the state after it. -/
def refuses (s : σ) (m : ExceptT (Failure φ) (StateM σ) α) (k : ErrorKind) : Trial σ := do
  let (x, s) := outcome s m
  refused x k
  return s

/-- Whether it is refused as expected or not, what is left to do starts where it ends. -/
theorem decides_refuses {s s' : σ} {m : ExceptT (Failure φ) (StateM σ) α} {y : Except φ α}
    {k : ErrorKind} {f : σ → Trial Unit} {p : Prop} (h : outcome s m = (y.mapError .fault, s'))
    (hp : Decides (f s') p) :
    Decides (refuses s m k >>= f) ((∃ e, y = .error e ∧ Fault.kind e = k) ∧ p) := by
  obtain ⟨n, hn, hk⟩ := decides_refused (comes_failure (congrArg Prod.fst h)) k
  have hr : Adds (refuses s m k) s' n := by
    have hs : (outcome s m).2 = s' := congrArg Prod.snd h
    exact hs ▸ hn.ends (adds_pure _)
  refine (hr.decides hk hp).congr (and_congr_left' ?_)
  simp only [ofFault_eq_error]
  constructor
  · rintro ⟨text, e, he, hkind, -⟩
    exact ⟨e, he, hkind⟩
  · rintro ⟨e, he, hkind⟩
    exact ⟨_, e, he, hkind, rfl⟩

end

end CilCatalog.Trial

namespace CilCatalog.Trial.Readers

open Live (Store ImageId TypeSig AssemblyName OpCode)
open SampleImage (i4 void static)

/-- A module called `name` with the sample in it. -/
def sampleModule (name : Bytes) : SampleImage × ImageId × Store :=
  let (i, s) := Store.empty.createImage name
  let (rows, s) := StateT.run (SampleImage.build i) s
  (rows, i, s)

/-- Whether the opcode with a given name takes the number of an argument, if there is one. -/
def takesArgument (name : Bytes) : Option Bool := (OpCode.ofName? name).map (·.takesArgument)

/-! ### The module -/

def moduleBasics : Trial Unit := do
  let (rows, i, s) := sampleModule "Sample.dll"
  let image := s.image i
  expect (image.types.length == 2)
    ("expected the global type and Program, got " ++ Bytes.decimal image.types.length ++ " types")
  let first := (s.typeDef (s.globalType i)).name
  expect (first == Live.globalTypeName) ("first type is '" ++ first ++ "'")
  expect (s.findType? i "App" "Program" == some rows.program) "Program not found"
  expect (s.findType? i [] "Inner").isNone "nested types are not top-level"
  let inner := s.fullName rows.inner
  expect (inner == utf8 "App.Program/Inner") ("nested name is '" ++ inner ++ "'")
  expect ((s.fieldDef rows.count).declaring == some rows.program) "field has no declaring type"
  let assembly ← match image.assemblyRefs with
    | .assemblyRef _ a :: _ => pure a
    | _                     => throw none
  expect (assembly.name == utf8 "mscorlib" && assembly.version == utf8 "4.0.0.0")
    ("assembly parsed as '" ++ assembly.text ++ "'")
  expect (assembly.text == SampleImage.mscorlib) ("display name is '" ++ assembly.text ++ "'")
  let defaults := (AssemblyName.ofText "Lib").text
  expect (defaults == utf8 "Lib, Version=0.0.0.0, Culture=neutral, PublicKeyToken=null")
    ("defaults: '" ++ defaults ++ "'")
  let leaf ← certain (TypeSig.ofLeaf .i4)
  expect (leaf.sigEq i4) "leaf signatures are not shared"
  expect (s.findField? rows.program "count" (.field leaf) == some rows.count)
    "field lookup by signature failed"
  let long ← certain (TypeSig.ofLeaf .i8)
  expect (s.findField? rows.program "count" (.field long)).isNone
    "field found with the wrong signature"
  expect (takesArgument "ldarg.s" == some true) "ldarg.s takes an argument"
  expect (takesArgument "ldloc.s" == some false) "ldloc.s takes a local"
  expect (OpCode.ofName? "bogus").isNone "found a bogus opcode"

/-! ### Reading the sample -/

/-- Whether a list is there and has a given number of elements. -/
def hasLength {α : Type} (l : Option (List α)) (n : Nat) : Bool := l.any (·.length == n)

/-- Expects the body of the method with a protected region to be on record. -/
def isMainBody (b : MethodBody) : Trial Unit := do
  let n := b.instructions.length
  expect (n == 8) ("expected 8 instructions, got " ++ Bytes.decimal n)
  if n = 8 then
    let operand (i : Nat) : Option Operand := (b.instructions[i]?).bind Instruction.operand
    expect (operand 1).isSome "call has no operand"
    expect (operand 3 == some (.int32 0)) "stloc.s does not store to local 0"
    expect (operand 4 == some (.int32 7)) "leave.s does not branch to instruction 7"
  expect (b.locals.length == 1) "expected one local"
  let isOne := b.handlers.length == 1
  if ← check isOne "exception handler missing" then
    for h in b.handlers do
      expect (h.tryStart == 0 && h.tryEnd == 5 && h.handlerStart == 5 && h.handlerEnd == 7)
        "handler offsets are wrong"
      expect (h.handlerType == 2) "handler is not a finally"

def readModule : Trial Unit := do
  let (rows, i, s) := sampleModule "Sample.dll"
  let (x, r) := outcome (.start i .default) (Reading.type s (some rows.program) .withChildren)
  let some program ← value x | return
  let some e ← value (r.catalog.types.get program) | return
  let id := e.identity
  let d ← present e.data?
  expect (id.ns == utf8 "App" && id.name == utf8 "Program")
    ("read as " ++ id.ns ++ "." ++ id.name)
  let base := d.baseType.bind SigTree.token?
  expect base.isSome "base type is not a token"
  expect (hasLength d.customAttributes 1) "custom attribute missing"
  expect (hasLength d.nestedTypes 1) "nested type missing"
  expect (hasLength d.fields 1) "field missing"
  expect (hasLength d.methods 3) "methods missing"
  expect (d.properties.any fun ps => ps.length == 1 && ps.all (·.getMethod.isSome))
    "property getter missing"
  if let some base := base then
    if let some e ← value (r.catalog.types.get base) then
      expect (e.identity.assembly == some SampleImage.mscorlib) "assembly is not the full name"
  let before := r.catalog.types.size
  let (x, r) := outcome r (Reading.type s (some rows.program) .definition)
  if let some again ← value x then
    expect (again == program) ("token changed from " ++ program.text ++ " to " ++ again.text)
  expect (r.catalog.types.size == before) "reading again added types"
  let (x, r) := outcome r (Reading.method s (some rows.main) .definition)
  let some main ← value x | return
  let some e ← value (r.catalog.methods.get main) | return
  let body := e.data?.bind MethodData.body
  if ← check body.isSome "Main has no body" then
    body.forM isMainBody

/-! ### Shapes of signatures -/

/-- The text of a tree, which should have one. -/
def textOf (t : SigTree) : Trial Bytes := do return (← value t.format).getD []

/-- Expects a tree, if there is one, to have a given text. -/
def isText (what : Bytes) (t : SigTree) (text : Bytes) : Trial Unit := do
  expect ((← textOf t) == text) (what ++ " is " ++ t.display)

/-- Expects the body that calls an instance of its own method, and a function by pointer, to be on record. -/
def isShapesBody (shapes : Token) (b : MethodBody) : Trial Unit := do
  let pinned ← match b.locals with
    | [t] => do pure ((← textOf t) == utf8 "Pinned(ByRef(U1))")
    | _   => pure false
  expect pinned "pinned local lost"
  let n := b.instructions.length
  if ← check (n == 7) ("expected 7 instructions, got " ++ Bytes.decimal n) then
    let operand (i : Nat) : Option Operand := (b.instructions[i]?).bind Instruction.operand
    let tree (i : Nat) : Option SigTree := match operand i with
      | some (.tree t) => some t
      | _              => none
    expect (operand 0 == some (.int32 0)) "ldarg.s does not load argument 0"
    expect ((tree 2).any (·.kind == .inlineType)) "ldtoken operand is not a type"
    if ← check ((tree 3).any (·.kind == .inlineMethod)) "call operand is not a method" then
      let (method, instantiation) := match tree 3 with
        | some (.inline _ (.methodSpec m i)) => (m.token?, i)
        | _                                  => (none, default)
      expect (method == some shapes) "call is not Shapes<int>"
      isText "instantiation" instantiation "GenericInstCC(Int32(0),Int32(1),I4)"
    let standalone ← match tree 5 with
      | some t => do pure ((← textOf t) == utf8 "Default(Int32(0),Int32(1),I4,I4)")
      | none   => pure false
    expect standalone "calli signature lost"

def signatureShapes : Trial Unit := do
  let (rows, i, s) := sampleModule "Sample.dll"
  let (x, r) := outcome (.start i .default) (Reading.method s (some rows.shapes) .definition)
  let some shapes ← value x | return
  let some e ← value (r.catalog.methods.get shapes) | return
  let sig := e.identity.signature
  let isWhole := sig.kind == .callSig && sig.args.length == 12
  if ← check isWhole ("signature is " ++ sig.display) then
    let arg (i : Nat) : SigTree := sig.args.getD i default
    let first (t : SigTree) : SigTree := t.args.headD default
    expect ((arg 0).int32? == some 0x10 && (arg 1).int32? == some 1)
      ("generic arity lost in " ++ sig.display)
    expect (arg 3 == .ofElement .mvar [.int32 0]) ("return type is " ++ (arg 3).display)
    isText "Ptr" (arg 4) "Ptr(I4)"
    isText "ByRef" (arg 5) "ByRef(String)"
    isText "FnPtr" (arg 6) "FnPtr(Default(Int32(0),Int32(1),I4,I4))"
    isText "Array" (arg 7) "Array(R8,Int32(2),Int32(1),Int32(4),Int32(2),Int32(0),Int32(-1))"
    isText "ValueArray" (arg 8) "ValueArray(I2,Int32(16))"
    expect ((arg 9).isElement .cmodReqd && (first (arg 9)).token?.isSome)
      ("CModReqd is " ++ (arg 9).display)
    expect ((arg 10).isElement .module && (first (arg 10)).int32? == some 1)
      ("Module is " ++ (arg 10).display)
    expect ((arg 11).isElement .genericInst && (arg 11).args.length == 3)
      ("GenericInst is " ++ (arg 11).display)
    let text ← textOf sig
    if let some again ← value (SigTree.parse text) then
      expect (again == sig) ("'" ++ text ++ "' changed after reparsing")
    let body := e.data?.bind MethodData.body
    if ← check body.isSome "Shapes has no body" then
      body.forM (isShapesBody shapes)

/-! ### Options and errors -/

def optionsAffectReading : Trial Unit := do
  let (rows, i, s) := sampleModule "Sample.dll"
  let namesOnly : Options := ⟨1⟩
  let (x, r) := outcome (.start i namesOnly) (Reading.type s (some rows.program) .withChildren)
  let some program ← value x | return
  expect (program.isNamed && program.text == utf8 "Program")
    ("named token is '" ++ program.text ++ "'")
  let some e ← value (r.catalog.types.get program) | return
  let d ← present e.data?
  expect d.customAttributes.isNone "custom attributes were read"
  let base ← present (d.baseType.bind SigTree.token?)
  if let some e ← value (r.catalog.types.get base) then
    expect (e.identity.assembly == some (utf8 "mscorlib"))
      ("assembly is '" ++ e.identity.assembly.getD [] ++ "'")
  let some main ← value (Token.ofName "Program::Main") | return
  if let some e ← value (r.catalog.methods.get main) then
    expect (e.data?.bind MethodData.body).isNone "method body was read"

/-- A static method with variable arguments, of which a call passes the given ones. -/
def varArg (passed : List TypeSig) : Live.CallSig :=
  .method CallingConvention.varArg.code (by decide) 0 void [] passed

/-- A body that calls a method with the number zero. -/
def callBody (method : Live.Row) : Live.MethodBody where
  instructions := SampleImage.instructions
    [("ldc.i4.0", .none), ("call", .row method), ("ret", .none)]

def readerErrors : Trial Unit := do
  let (rows, i, s) := sampleModule "Sample.dll"
  let (other, s) := s.createImage "Other.dll"
  let (stranger, s) := s.createType other "Other" "Stranger"
  let r := Reader.start i .default
  let r ← refuses r (Reading.type s none .reference) .invalidArgument
  let r ← refuses r (Reading.type s (some stranger) .reference) .invalidArgument
  let r ← refuses r (Reading.type s (some rows.program) ⟨7⟩) .invalidArgument
  let r ← refuses r (Reading.field s (some rows.count) .withChildren) .invalidArgument
  let r ← refuses r (Reading.method s none .definition) .invalidArgument
  -- types of other modules of the same assembly
  let (moduleRef, s) := s.createModuleRef i "Other.dll"
  let (base, s) := s.addTypeRef i "Other" "Base" moduleRef
  let (foreign, s) := s.createType i "App" "Foreign"
  let s := s.modifyType foreign fun d => { d with baseType := base }
  let r ← refuses r (Reading.type s (some foreign) .definition) .unsupported
  -- calls with variable arguments
  let (log, s) := s.createMethod rows.program
    { name := "Log", signature := varArg [], attributes := 0x0016 }
  let (call, s) := s.createMemberRef i "Log" (varArg [i4]) (.methodDef log)
  let (caller, s) := s.createMethod rows.program {
    name := "CallLog", signature := static void [], attributes := 0x0016
    body := some (callBody call) }
  let _ ← refuses r (Reading.method s (some caller) .definition) .unsupported

/-- All of these. -/
def suite : TrialSuite := [
  ⟨"Module basics", moduleBasics⟩,
  ⟨"Read module", readModule⟩,
  ⟨"Signature shapes", signatureShapes⟩,
  ⟨"Options affect reading", optionsAffectReading⟩,
  ⟨"Reader errors", readerErrors⟩]

end CilCatalog.Trial.Readers

namespace CilCatalog.Trial.Writers

open Live (Row ImageId TypeId Store)
open Sample (typeNamed typeReference)
open SigTree (ofElement ofConvention)

/-- A writer at work on a new module, whose owner answers as the hooks say. -/
def start (name : Bytes) : ImageId × WriteState :=
  let (i, s) := Store.empty.createImage name
  (i, ⟨s, .start i ⟨none, none⟩⟩)

/-! ### Round trip -/

/-- The types that rows stand for; each row should be a type definition. -/
def definitions : List Row → Trial (Option (List TypeId))
  | []      => return some []
  | r :: rs => do
      let t? := match r with
        | .typeDef t => some t
        | _          => none
      if ← check t?.isSome ("wrote a " ++ utf8 r.kindName ++ " instead of a type definition") then
        return (← definitions rs).map fun ts => t?.toList ++ ts
      else return none

/-- Rows are taken for type definitions if all of them are, and no other rows are as expected. -/
theorem adds_definitions (rows : List Row) : ∃ o n, Adds (definitions rows) o n ∧
    (n.passed = true ↔ o.isSome = true) ∧ ∀ ts, o = some ts ↔ rows = ts.map .typeDef := by
  induction rows with
  | nil => exact ⟨some [], _, adds_pure _, by simp, fun ts => by cases ts <;> simp⟩
  | cons r rows ih =>
      obtain ⟨o, n, hn, hp, ho⟩ := ih
      cases r with
      | typeDef t =>
          refine ⟨o.map (t :: ·), _, (adds_check true _).bind (hn.ends (adds_pure _)), ?_, ?_⟩
          · simp [hp]
          · rintro (- | ⟨u, ts⟩)
            · simp
            · simp only [Option.map_eq_some_iff, ho, List.map_cons, List.cons.injEq, Row.typeDef.injEq]
              exact ⟨fun ⟨_, h, ht, hts⟩ => ⟨ht, hts ▸ h⟩, fun ⟨ht, h⟩ => ⟨ts, h, ht, rfl⟩⟩
      | _ =>
          refine ⟨none, _, (adds_check false _).ends (by exact adds_pure none), by simp, ?_⟩
          rintro (- | ⟨u, ts⟩) <;> simp

/-- Expects the sample's class to be in a module again, with its members in order. -/
def hasProgram (s : Store) (i : ImageId) : Trial Unit := do
  let program := s.findType? i "App" "Program"
  if ← check program.isSome "Program was not written" then
    let d := s.typeDef (program.getD default)
    let second := (d.methods[1]?).map s.methodDef
    let isWhole := d.methods.length == 3
    expect (d.nestedTypes.length == 1) "nested type missing"
    expect (isWhole && second.any (·.name == utf8 "Main")) "methods are out of order"
    expect (isWhole && second.any (·.body.isSome)) "Main has no body"
    expect (d.properties.length == 1 && d.properties.all (·.getMethod == d.methods.head?))
      "getter was not linked"

def roundTrip : Trial Unit := do
  let (_, first, s) := Readers.sampleModule "First.dll"
  let all (s : Store) (i : ImageId) : List (Option TypeId) := (s.image i).types.map some
  let (x, r) := outcome (.start first .default)
    (Reading.types s (all s first) .withChildren)
  let some tokens ← value x | return
  let c := r.release.1
  let some text ← value (c.toText .compact false) | return
  let some back ← value (Catalog.ofText text) | return
  let (second, s) := s.createImage "Second.dll"
  let (x, w) := outcome ⟨s, .start second ⟨none, none⟩⟩
    (Writing.types back tokens .withChildren)
  let some rows ← value x | return
  let some types ← definitions rows | return
  let s := w.store
  let image := s.image second
  expect (types.head? == some (s.globalType second)) "global type was not reused"
  expect (image.types.length == 2)
    ("expected 2 top-level types, got " ++ Bytes.decimal image.types.length)
  expect (image.assemblyRefs.length == 1)
    ("expected 1 assembly reference, got " ++ Bytes.decimal image.assemblyRefs.length)
  hasProgram s second
  let (x, r) := outcome (.start second .default)
    (Reading.types s (types.map some) .withChildren)
  let some again ← value x | return
  expect (tokens == again) "top-level types got different tokens"
  sameCatalog c r.catalog

/-! ### Writing twice -/

/-- The definition of a public class without a base type. -/
def classDefinition (ns name : Bytes) (assembly : Option Bytes) : TypeEntity :=
  .definition (typeNamed ns name assembly) { attributes := 0x00100001 }

/-- A class of the module at hand. -/
def widget : TypeEntity := classDefinition "App" "Widget" none

def writingTwice : Trial Unit := do
  let c := Catalog.empty .default
  let (i, w) := start "Out.dll"
  let (a, w) := outcome w (Writing.type c widget .definition)
  let (b, w) := outcome w (Writing.type c widget .definition)
  let some a ← value a | return
  let some b ← value b | return
  expect (a.same b) "second write returned a different row"
  let types := (w.store.image i).types
  expect (types.length == 2) ("expected the global type and Widget, got " ++
    Bytes.decimal types.length ++ " types")
  let (isDefinition, attributes) := match a with
    | .typeDef t => (true, (w.store.typeDef t).attributes)
    | _          => (false, 0)
  if ← check isDefinition "Widget is not a type definition" then
    expect (attributes == 0x00100001) "attributes not written"
  let object := typeReference "System" "Object" (some "mscorlib")
  let (a, w) := outcome w (Writing.type c object .reference)
  let (b, w) := outcome w (Writing.type c object .reference)
  if let some a ← value a then
    if let some b ← value b then
      expect (a.same b && a.kind? == some .typeRef) "type reference was not reused"
  let image := w.store.image i
  expect (image.typeRefs.length == 1 && image.assemblyRefs.length == 1)
    "references were duplicated"
  let (x, w) := outcome w
    (Writing.type c (typeReference [] Live.globalTypeName none) .reference)
  if let some row ← value x then
    expect (row.same (.typeDef (w.store.globalType i))) "<Module> is not the global type"

/-! ### Errors -/

/-- A method with an instruction that there is none of. -/
def badMethod : MethodEntity :=
  .definition
    ⟨"Bad", .token (.index 0), ofConvention .standard [.int32 0, .int32 0, ofElement .void]⟩
    { body := some {
        instructions := [{ opcode := "frobnicate" }]
        handlers := [], locals := [], maxStack := 8, initLocals := false } }

/-- A field whose signature has flags. -/
def fieldWith (flags : Int32) : FieldEntity :=
  .definition
    ⟨"flagged", .token (.index 0), ofConvention .field [.int32 flags, ofElement .i4]⟩ {}

def writerErrors : Trial Unit := do
  let c := Catalog.empty .default
  let (_, w) := start "Out.dll"
  let reference := typeReference "App" "Widget" none
  let object := classDefinition "System" "Object" (some "mscorlib")
  let w ← refuses w (Writing.type c reference .definition) .invalidOperation
  let w ← refuses w (Writing.type c object .definition) .invalidOperation
  let w ← refuses w (Writing.type c widget ⟨3⟩) .invalidArgument
  let _ ← refuses w (Writing.types c [.index 0] .reference) .invalidArgument
  let some types ← value (c.types.add (.index 0) widget) | return
  let c := { c with types }
  let (_, w) := start "Out2.dll"
  let _ ← refuses w (Writing.method c badMethod .definition) .invalidData
  let (_, w) := start "Out3.dll"
  let w ← refuses w (Writing.field c (fieldWith 0x20) .definition) .invalidData
  let (x, w) := outcome w (Writing.field c (fieldWith 0) .definition)
  if let some row ← value x then
    let hasFlags := match row with
      | .fieldDef f => (w.store.fieldDef f).signature.raw &&& 0xF0 != 0
      | _           => true
    expect (!hasFlags) "field signature has flags"

/-! ### Questions -/

/-- Whether the scope of a type reference is a given row. -/
def hasScope (scope : Row) : Row → Bool
  | .typeRef _ _ _ r => r.same scope
  | _                => false

def hooks : Trial Unit := do
  let c := Catalog.empty .default
  let (i, s) := Store.empty.createImage "Out.dll"
  let (preset, s) := s.createAssemblyRef i (.ofSimpleName "System.Runtime")
  let (widget, s) := s.createType i "Vendor" "Widget"
  let (broken, s) := s.addTypeRef i "X" "Broken" preset
  let assembly (name : Bytes) : Row := if name == utf8 "netstandard" then preset else .null
  let type (a : Row) (id : TypeIdentity) : Row :=
    if a.isNull && id.name == utf8 "Gadget" then .typeDef widget
    else if a.isNull && id.name == utf8 "Broken" then broken
    else .null
  let w : WriteState := ⟨s, .start i ⟨some assembly, some type⟩⟩
  let standard (name : Bytes) : TypeEntity := typeReference "System" name (some "netstandard")
  let app (name : Bytes) : TypeEntity := typeReference "App" name none
  let (x, w) := outcome w (Writing.type c (standard "Object") .reference)
  if let some row ← value x then
    expect (hasScope preset row) "assembly hook was not used"
  let (x, w) := outcome w (Writing.type c (standard "String") .reference)
  if let some _ ← value x then
    let asked := w.writer.questions.countP fun q => q matches .assembly _
    expect (asked == 1) ("assembly hook called " ++ Bytes.decimal asked ++ " times")
  let (x, w) := outcome w (Writing.type c (app "Gadget") .reference)
  if let some row ← value x then
    expect (row.same (.typeDef widget)) "type hook was not used"
  let _ ← refuses w (Writing.type c (app "Broken") .reference) .invalidOperation

/-- All of these. -/
def suite : TrialSuite := [
  ⟨"Module round trip", roundTrip⟩,
  ⟨"Writer idempotence", writingTwice⟩,
  ⟨"Writer errors", writerErrors⟩,
  ⟨"Resolution hooks", hooks⟩]

end CilCatalog.Trial.Writers

/-! ### All suites -/

namespace CilCatalog.TrialSuite

/-- The four suites with their names: of signature trees, of catalogs, of documents, and of live modules. -/
def all : List (String × TrialSuite) := [
  ("complex_type", Trial.Trees.suite),
  ("metadata", Trial.Catalogs.suite),
  ("serialise", Trial.Documents.suite),
  ("model", Trial.Readers.suite ++ Trial.Writers.suite)]

/-- The suite called `name`; an empty one if there is none. -/
def named (name : Bytes) : TrialSuite :=
  ((all.find? fun s => utf8 s.1 == name).map Prod.snd).getD []

end CilCatalog.TrialSuite
