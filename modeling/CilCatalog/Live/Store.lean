import CilCatalog.Live.Definition

/-!
# The store of live modules

Modules and the definitions in them, by number.  A definition belongs to the module it was made in; a type may be nested in another, and a field or method may have a declaring type.  Which type that is, is settled once, and the type has the member in its list from then on.
-/

namespace CilCatalog.Live

/-- A module: its name, the types that are not nested, and the tables of its references. -/
structure Image where
  name : Bytes
  types : List TypeId
  assemblyRefs : List Row
  moduleRefs : List Row
  typeRefs : List Row
  memberRefs : List Row
deriving Inhabited

/-- All live modules with their definitions, and the next number for a row that is a value. -/
structure Store where
  images : List Image
  typeDefs : List TypeDef
  fieldDefs : List FieldDef
  methodDefs : List MethodDef
  nextRow : Nat

/-- The name of the type that holds a module's global fields and methods. -/
def globalTypeName : Bytes := "<Module>"

namespace Store

def empty : Store := ⟨[], [], [], [], 0⟩

instance : Inhabited Store := ⟨empty⟩

/-! ### Looking up and changing -/

def image (s : Store) (i : ImageId) : Image := (s.images[i.index]?).getD default

def typeDef (s : Store) (t : TypeId) : TypeDef := (s.typeDefs[t.index]?).getD default

def fieldDef (s : Store) (f : FieldId) : FieldDef := (s.fieldDefs[f.index]?).getD default

def methodDef (s : Store) (m : MethodId) : MethodDef := (s.methodDefs[m.index]?).getD default

def modifyImage (s : Store) (i : ImageId) (f : Image → Image) : Store :=
  { s with images := s.images.modify i.index f }

def modifyType (s : Store) (t : TypeId) (f : TypeDef → TypeDef) : Store :=
  { s with typeDefs := s.typeDefs.modify t.index f }

def modifyField (s : Store) (i : FieldId) (f : FieldDef → FieldDef) : Store :=
  { s with fieldDefs := s.fieldDefs.modify i.index f }

def modifyMethod (s : Store) (i : MethodId) (f : MethodDef → MethodDef) : Store :=
  { s with methodDefs := s.methodDefs.modify i.index f }

/-! ### Names -/

/-- The first `n` of the types around a type, from the inside out. -/
def enclosingWithin (s : Store) : Nat → TypeId → List TypeId
  | 0,     _ => []
  | n + 1, t =>
      match (s.typeDef t).declaring with
      | none       => []
      | some outer => outer :: enclosingWithin s n outer

/-- The types around a type, from the inside out.  There are not more of them than types. -/
def enclosing (s : Store) (t : TypeId) : List TypeId := s.enclosingWithin s.typeDefs.length t

/-- The type around a type that is not nested itself; the type itself if it is not nested. -/
def outermost (s : Store) (t : TypeId) : TypeId := (s.enclosing t).getLastD t

/-- The name with the namespace in front, if there is one. -/
def qualified (ns name : Bytes) : Bytes := if ns.isEmpty then name else ns ++ octet '.' :: name

/-- The name of a type with its namespace and the types around it. -/
def fullName (s : Store) (t : TypeId) : Bytes :=
  match (t :: s.enclosing t).reverse with
  | []         => []
  | top :: ins =>
      qualified (s.typeDef top).ns (s.typeDef top).name ++
        ins.flatMap fun i => octet '/' :: (s.typeDef i).name

/-! ### Modules and definitions -/

/-- A new type that is neither nested nor in the list of its module. -/
def addTypeDef (s : Store) (i : ImageId) (ns name : Bytes) : TypeId × Store :=
  (⟨s.typeDefs.length⟩, { s with typeDefs := s.typeDefs ++ [{ image := i, ns, name }] })

/-- A new type of a module. -/
def createType (s : Store) (i : ImageId) (ns name : Bytes) : TypeId × Store :=
  let (t, s) := s.addTypeDef i ns name
  (t, s.modifyImage i fun m => { m with types := m.types ++ [t] })

/-- A new module, which has its global type. -/
def createImage (s : Store) (name : Bytes) : ImageId × Store :=
  let i : ImageId := ⟨s.images.length⟩
  let m : Image := ⟨name, [], [], [], [], []⟩
  (i, (createType { s with images := s.images ++ [m] } i [] globalTypeName).2)

/-- The type that holds a module's global fields and methods. -/
def globalType (s : Store) (i : ImageId) : TypeId := (s.image i).types.headD default

/-- Puts a type into another; it must not be nested yet. -/
def nest {φ : Type} (s : Store) (outer t : TypeId) : Except (Failure φ) Store :=
  match (s.typeDef t).declaring with
  | some _ => .error (.breach ("Type '" ++ s.fullName t ++ "' is already nested"))
  | none   =>
      let s := s.modifyType t fun d => { d with declaring := some outer }
      .ok (s.modifyType outer fun d => { d with nestedTypes := d.nestedTypes ++ [t] })

/-- A new type inside another. -/
def createNestedType (s : Store) (i : ImageId) (ns name : Bytes) (outer : TypeId) :
    TypeId × Store :=
  let t : TypeId := ⟨s.typeDefs.length⟩
  let d : TypeDef := { image := i, ns, name, declaring := some outer }
  let s : Store := { s with typeDefs := s.typeDefs ++ [d] }
  (t, s.modifyType outer fun d => { d with nestedTypes := d.nestedTypes ++ [t] })

/-- A new field without a declaring type. -/
def addFieldDef (s : Store) (f : FieldDef) : FieldId × Store :=
  (⟨s.fieldDefs.length⟩, { s with fieldDefs := s.fieldDefs ++ [f] })

/-- Makes a type the declaring type of a field, which must have none yet. -/
def attachField {φ : Type} (s : Store) (t : TypeId) (f : FieldId) : Except (Failure φ) Store :=
  let d := s.fieldDef f
  match d.declaring with
  | some _ => .error (.breach ("Field '" ++ d.name ++ "' already has a declaring type"))
  | none   =>
      let s := s.modifyField f fun d => { d with declaring := some t }
      .ok (s.modifyType t fun d => { d with fields := d.fields ++ [f] })

/-- A new field of a type. -/
def createField (s : Store) (t : TypeId) (f : FieldDef) : FieldId × Store :=
  let (i, s) := s.addFieldDef { f with declaring := some t }
  (i, s.modifyType t fun d => { d with fields := d.fields ++ [i] })

/-- A new method without a declaring type. -/
def addMethodDef (s : Store) (m : MethodDef) : MethodId × Store :=
  (⟨s.methodDefs.length⟩, { s with methodDefs := s.methodDefs ++ [m] })

/-- Makes a type the declaring type of a method, which must have none yet. -/
def attachMethod {φ : Type} (s : Store) (t : TypeId) (m : MethodId) : Except (Failure φ) Store :=
  let d := s.methodDef m
  match d.declaring with
  | some _ => .error (.breach ("Method '" ++ d.name ++ "' already has a declaring type"))
  | none   =>
      let s := s.modifyMethod m fun d => { d with declaring := some t }
      .ok (s.modifyType t fun d => { d with methods := d.methods ++ [m] })

/-- A new method of a type. -/
def createMethod (s : Store) (t : TypeId) (m : MethodDef) : MethodId × Store :=
  let (i, s) := s.addMethodDef { m with declaring := some t }
  (i, s.modifyType t fun d => { d with methods := d.methods ++ [i] })

/-! ### Rows that are values -/

/-- A new row, made with a number of its own. -/
def addRow (s : Store) (make : Nat → Row) : Row × Store :=
  (make s.nextRow, { s with nextRow := s.nextRow + 1 })

def createAssemblyRef (s : Store) (i : ImageId) (n : AssemblyName) : Row × Store :=
  let (r, s) := s.addRow (.assemblyRef · n)
  (r, s.modifyImage i fun m => { m with assemblyRefs := m.assemblyRefs ++ [r] })

def createModuleRef (s : Store) (i : ImageId) (name : Bytes) : Row × Store :=
  let (r, s) := s.addRow (.moduleRef · name)
  (r, s.modifyImage i fun m => { m with moduleRefs := m.moduleRefs ++ [r] })

/-- A new reference to a type with the given scope. -/
def addTypeRef (s : Store) (i : ImageId) (ns name : Bytes) (scope : Row) : Row × Store :=
  let (r, s) := s.addRow (.typeRef · ns name scope)
  (r, s.modifyImage i fun m => { m with typeRefs := m.typeRefs ++ [r] })

/-- A new reference to a type; there must be a scope. -/
def createTypeRef {φ : Type} (s : Store) (i : ImageId) (ns name : Bytes) (scope : Row) :
    Except (Failure φ) (Row × Store) :=
  if scope.isNull then .error (.breach ("TypeRef '" ++ name ++ "' needs a resolution scope"))
  else .ok (s.addTypeRef i ns name scope)

def createMemberRef (s : Store) (i : ImageId) (name : Bytes) (signature : CallSig)
    (parent : Row) : Row × Store :=
  let (r, s) := s.addRow (.memberRef · name signature parent)
  (r, s.modifyImage i fun m => { m with memberRefs := m.memberRefs ++ [r] })

/-- A new type specification, which is in no table. -/
def createTypeSpec (s : Store) (signature : TypeSig) : Row × Store :=
  s.addRow (.typeSpec · signature)

/-- A new instantiation of a generic method, which is in no table. -/
def createMethodSpec (s : Store) (method : Row) (instantiation : CallSig) : Row × Store :=
  s.addRow (.methodSpec · method instantiation)

/-! ### Finding -/

/-- The first type of a module, not nested, with the given name. -/
def findType? (s : Store) (i : ImageId) (ns name : Bytes) : Option TypeId :=
  (s.image i).types.find? fun t => (s.typeDef t).ns == ns && (s.typeDef t).name == name

/-- The first field of a type with the given name and signature. -/
def findField? (s : Store) (t : TypeId) (name : Bytes) (signature : CallSig) : Option FieldId :=
  (s.typeDef t).fields.find? fun f =>
    (s.fieldDef f).name == name && (s.fieldDef f).signature.sigEq signature

/-- The first method of a type with the given name and signature. -/
def findMethod? (s : Store) (t : TypeId) (name : Bytes) (signature : CallSig) :
    Option MethodId :=
  (s.typeDef t).methods.find? fun m =>
    (s.methodDef m).name == name && (s.methodDef m).signature.sigEq signature

end Store

end CilCatalog.Live
