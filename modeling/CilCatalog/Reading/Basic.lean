import CilCatalog.Live.Store
import CilCatalog.Registry

/-!
# Reading live modules

A reader records entities of one live module in a catalog.  Every entity is registered, so that reading one twice, or reading one that an earlier reading has met on its way, gives the same token.  A reading that fails leaves on record what it had recorded before it failed.
-/

namespace CilCatalog

/-- Why an entity of a live module is not recorded. -/
inductive ReadFault where
  | levelOutOfRange (highest asked : Level)
  /-- Something that must be there is missing. -/
  | absent (what : String)
  /-- A type, field or method is not of the module at hand. -/
  | foreign (what : String) (name image : Bytes)
  /-- The scopes of a type reference do not end in an assembly. -/
  | noAssembly (type : Bytes)
  | typeSpecification
  | unknownConvention (code : UInt8)
  /-- A member reference, or a row, is not what it is used as. -/
  | notFieldReference (name : Bytes)
  | notMethodReference (name : Bytes)
  | notField (kind : String)
  | notMethod (kind : String)
  /-- A member reference whose parent is another module. -/
  | globalMember (what : String) (name : Bytes)
  /-- A method reference for one call with variable arguments. -/
  | callSite (name : Bytes)
  /-- A member reference whose parent is no type. -/
  | noDeclaringType (what : String) (name : Bytes)
  | noNativeModule (method : Bytes)
  | foreignTarget
  | operandMismatch (op : Live.OpCode)
  | unsupportedOpCode (op : Live.OpCode)
  | signatureOperand
  | missingOperand
  | rowOperand (kind : String)
  | registry (f : RegistryFault)
  | store (f : TokenMapFault)
deriving DecidableEq

namespace ReadFault

def kind : ReadFault → ErrorKind
  | noAssembly _        => .unsupported
  | typeSpecification   => .unsupported
  | globalMember _ _    => .unsupported
  | callSite _          => .unsupported
  | unsupportedOpCode _ => .unsupported
  | rowOperand _        => .unsupported
  | registry f          => f.kind
  | _                   => .invalidArgument

def message : ReadFault → Bytes
  | levelOutOfRange highest asked =>
      "Level must be between Reference and " ++ highest.name ++ ", got " ++
        Bytes.signedDecimal asked.code.toInt
  | absent what             => what ++ " must not be null"
  | foreign what name image =>
      what ++ " '" ++ name ++ "' is not defined in module '" ++ image ++ "'"
  | noAssembly type         =>
      "Type reference '" ++ type ++
        "' points into another module; only assembly scopes are supported"
  | typeSpecification       => "A type specification cannot be used here"
  | unknownConvention code  =>
      "Unknown calling convention " ++ Bytes.signedHexadecimal code.toNat
  | notFieldReference name  => "Member reference '" ++ name ++ "' is not a field reference"
  | notMethodReference name => "Member reference '" ++ name ++ "' is not a method reference"
  | notField kind           => "A " ++ kind ++ " is not a field"
  | notMethod kind          => "A " ++ kind ++ " is not a method"
  | globalMember what name  => what ++ " '" ++ name ++ "' is a global of another module"
  | callSite name           =>
      "Vararg call site references to '" ++ name ++ "' are not supported"
  | noDeclaringType what name =>
      what ++ " reference '" ++ name ++ "' has no declaring type"
  | noNativeModule method   => "P/Invoke map of '" ++ method ++ "' has no module"
  | foreignTarget           => "Branch target is not part of the method body"
  | operandMismatch op      =>
      "Operand of '" ++ op.name ++ "' does not match its operand type " ++ op.operandType.name
  | unsupportedOpCode op    => "Opcode '" ++ op.name ++ "' is not supported"
  | signatureOperand        => "Stand-alone signature must be a method or local signature"
  | missingOperand          => "Token operand must be a metadata row or a signature"
  | rowOperand kind         => "A " ++ kind ++ " cannot be an instruction operand"
  | registry f              => f.message
  | store f                 => f.message

instance : Fault ReadFault where
  kind := kind
  message := message

end ReadFault

/-- A module to read from, and what has been recorded of it. -/
structure Reader where
  image : Live.ImageId
  catalog : Catalog
  registry : Registry

namespace Reader

/-- A reader that has recorded nothing. -/
def start (image : Live.ImageId) (o : Options) : Reader := ⟨image, .empty o, .empty⟩

instance : Inhabited Reader := ⟨start default default⟩

/-- The catalog, and the reader without it.  What is registered stays so. -/
def release (r : Reader) : Catalog × Reader :=
  (r.catalog, { r with catalog := .empty r.catalog.options })

end Reader

/-- A computation that records entities.  It keeps what it has recorded when it fails. -/
abbrev Reading := ExceptT (Failure ReadFault) (StateM Reader)

namespace Reading

/-- Stops with a fault. -/
def refuse {α : Type} (f : ReadFault) : Reading α := throw (.fault f)

/-- The level must be known, and not above `highest`. -/
def checkLevel (highest asked : Level) : Reading Unit :=
  if asked < .reference ∨ highest < asked then refuse (.levelOutOfRange highest asked)
  else pure ()

/-- The options of the catalog. -/
def options : Reading Options := do return (← get).catalog.options

/-- The outcome of a registration: on success the reader goes on with what it changed. -/
def registering
    (register : Registry → Catalog → Except RegistryFault (Registered × Registry × Catalog)) :
    Reading Registered := do
  let r ← get
  match register r.registry r.catalog with
  | .error f     => refuse (.registry f)
  | .ok (u, g, c) =>
      set { r with registry := g, catalog := c }
      return u

def registerType (e : TypeEntity) (level : Level) : Reading Registered :=
  registering fun g c => g.registerType c e level

def registerField (e : FieldEntity) (level : Level) : Reading Registered :=
  registering fun g c => g.registerField c e level

def registerMethod (e : MethodEntity) (level : Level) : Reading Registered :=
  registering fun g c => g.registerMethod c e level

/-! ### References -/

/-- Registers a type as a reference. -/
def typeReference (id : TypeIdentity) : Reading Token := do
  return (← registerType (.reference id) .reference).token

/-- Registers a field as a reference. -/
def fieldReference (id : MemberIdentity) : Reading Token := do
  return (← registerField (.reference id) .reference).token

/-- Registers a method as a reference. -/
def methodReference (id : MemberIdentity) : Reading Token := do
  return (← registerMethod (.reference id) .reference).token

end Reading

end CilCatalog
