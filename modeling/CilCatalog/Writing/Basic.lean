import CilCatalog.Catalog
import CilCatalog.Live.Store
import CilCatalog.Registry

/-!
# Writing live modules

A writer makes the entities of a catalog part of a live module.  Types without an assembly are looked up in the module by name and made if they are not there; types of other assemblies become type references.  Fields and methods are looked up in their declaring type by name and signature, or become member references if that type is not a definition.  The writer remembers how far each entity has been written.  A writing that fails leaves what it had done before it failed.
Wherever the writer relies on something, it goes through an operation that has a contract, and that breaks off if the contract is broken: asking for the kind of what may be missing (`Writing.askable`), taking an argument of a node, making a signature, putting a new definition in its place (`Writing.changing`).
-/

namespace CilCatalog

open Live (Row OpCode)

/-- What is wrong with the arguments of a signature node. -/
inductive ArgumentFault where
  | count (node : String) (due found : Nat)
  | missing (node : String) (position : Nat)
  | notInteger (node : String) (position : Nat)
  | negative (node : String) (position : Nat)
deriving DecidableEq, Repr

/-- Why an entity of a catalog is not written. -/
inductive WriteFault where
  | levelOutOfRange (highest asked : Level)
  /-- A type, field or method that has a definition, but is found outside the module. -/
  | notInModule (what : String) (name image : Bytes)
  | onlyReference (what : String) (name : Bytes) (level : Level)
  | emptyAssemblyName
  /-- A type of this module was answered with a row that is no definition. -/
  | answeredBy (type : Bytes) (kind : String)
  | enclosing (type : Bytes)
  | signatureKind (what : String) (name : Bytes)
  /-- A type lists a child that is not in it. -/
  | strayChild (type : Bytes) (child verb : String)
  | expectedType (kind : String)
  | undefinedMethod (t : Token)
  | maxStack (n : Int32)
  | unknownOpCode (name : Bytes)
  | instructionIndex (n : Int32)
  | operandMismatch (op : OpCode)
  | negativeVariable (n : Int32) (op : OpCode)
  | localIndex (n : Int32) (op : OpCode)
  | unsupportedOpCode (op : OpCode)
  | handlerType (n : Int32)
  | signatureOperand
  | fieldOperand
  | methodOperand
  | instantiation
  | operandKind (kind : String)
  | argument (f : ArgumentFault)
  | expectedTypeSignature (kind : String)
  | unknownElementType (code : UInt8)
  | functionPointer
  | typeToken (element : String)
  | misplaced (element : String)
  | expectedSignature (kind : String)
  | unknownConvention (code : UInt8)
  | invalidFlags (n : Int32)
  | sentinelTwice
  | parameterCount (declared : UInt32) (found : Nat)
  | flagsNotAllowed (convention : String) (flags : UInt8)
  | store (f : TokenMapFault)
deriving DecidableEq

namespace ArgumentFault

def message : ArgumentFault → Bytes
  | count node due found  =>
      "'" ++ node ++ "' takes " ++ Bytes.decimal due ++ " arguments, got " ++ Bytes.decimal found
  | missing node position => "'" ++ node ++ "' is missing argument " ++ Bytes.decimal position
  | notInteger node position =>
      "Argument " ++ Bytes.decimal position ++ " of '" ++ node ++ "' must be an integer"
  | negative node position =>
      "Argument " ++ Bytes.decimal position ++ " of '" ++ node ++ "' must not be negative"

end ArgumentFault

namespace WriteFault

def kind : WriteFault → ErrorKind
  | levelOutOfRange _ _   => .invalidArgument
  | store _               => .invalidArgument
  | notInModule _ _ _     => .invalidOperation
  | onlyReference _ _ _   => .invalidOperation
  | answeredBy _ _        => .invalidOperation
  | unsupportedOpCode _   => .unsupported
  | _                     => .invalidData

def message : WriteFault → Bytes
  | levelOutOfRange highest asked =>
      "Level must be between Reference and " ++ highest.name ++ ", got " ++
        Bytes.signedDecimal asked.code.toInt
  | notInModule what name image =>
      what ++ " '" ++ name ++ "' is not defined in module '" ++ image ++ "'"
  | onlyReference what name level =>
      what ++ " '" ++ name ++ "' is only a reference and cannot be written at level " ++
        level.name
  | emptyAssemblyName       => "Assembly name must not be empty"
  | answeredBy type kind    =>
      "Type '" ++ type ++ "' has no assembly, but was resolved to a " ++ kind
  | enclosing type          => "Enclosing type of '" ++ type ++ "' is not a named type"
  | signatureKind what name =>
      "Signature of " ++ what ++ " '" ++ name ++ "' is not a " ++ what ++ " signature"
  | strayChild type child verb =>
      "Type '" ++ type ++ "' lists a " ++ child ++ " it does not " ++ verb
  | expectedType kind       => "Expected a type, got a " ++ kind
  | undefinedMethod t       => "Method '" ++ t.text ++ "' is not defined in this module"
  | maxStack n              => "Max stack " ++ Bytes.signedDecimal n.toInt ++ " is out of range"
  | unknownOpCode name      => "Unknown opcode '" ++ name ++ "'"
  | instructionIndex n      =>
      "Instruction index " ++ Bytes.signedDecimal n.toInt ++ " is out of range"
  | operandMismatch op      =>
      "Operand of '" ++ op.name ++ "' does not match its operand type " ++ op.operandType.name
  | negativeVariable n op   =>
      "Variable index " ++ Bytes.signedDecimal n.toInt ++ " of '" ++ op.name ++ "' is negative"
  | localIndex n op         =>
      "Local " ++ Bytes.signedDecimal n.toInt ++ " of '" ++ op.name ++ "' is out of range"
  | unsupportedOpCode op    => "Opcode '" ++ op.name ++ "' is not supported"
  | handlerType n           => "Unknown exception handler type " ++ Bytes.signedDecimal n.toInt
  | signatureOperand        => "Stand-alone signature must be a method or local signature"
  | fieldOperand            => "Field operand must be a token"
  | methodOperand           => "Method operand must be a token or a method instantiation"
  | instantiation           => "Method instantiation must be a GenericInstCC signature"
  | operandKind kind        => "A " ++ kind ++ " is not a token operand"
  | argument f              => f.message
  | expectedTypeSignature kind => "Expected a type signature, got a " ++ kind
  | unknownElementType c    => "Unknown element type " ++ Bytes.signedHexadecimal c.toNat
  | functionPointer         => "Function pointer must have a method signature"
  | typeToken element       => "Argument of '" ++ element ++ "' must be a type token"
  | misplaced element       => "Element type '" ++ element ++ "' cannot appear here"
  | expectedSignature kind  => "Expected a calling convention signature, got a " ++ kind
  | unknownConvention c     => "Unknown calling convention " ++ Bytes.signedHexadecimal c.toNat
  | invalidFlags n          =>
      "Invalid calling convention flags " ++ Bytes.signedHexadecimal n.toInt
  | sentinelTwice           => "Signature has more than one Sentinel"
  | parameterCount declared found =>
      "Signature declares " ++ Bytes.decimal declared.toNat ++ " parameters but has " ++
        Bytes.decimal found
  | flagsNotAllowed convention flags =>
      "'" ++ convention ++ "' signature cannot have flags " ++
        Bytes.signedHexadecimal flags.toNat
  | store f                 => f.message

instance : Fault WriteFault where
  kind := kind
  message := message

end WriteFault

/-! ### What a writer remembers -/

/-- The row of an entity, and how far it has been written. -/
structure Written where
  row : Row
  level : Level

/-- The rows of entities by their identities. -/
abbrev Memory (ι : Type) := List (ι × Written)

namespace Memory

variable {ι : Type} [Identity ι]

/-- What is remembered of an identity. -/
def find? (m : Memory ι) (id : ι) : Option Written :=
  (List.find? (fun e => Identity.same e.1 id) m).map Prod.snd

/-- The level an identity has been written at; that of a reference if it is unknown. -/
def level (m : Memory ι) (id : ι) : Level := ((m.find? id).map Written.level).getD .reference

/-- With the level of an identity changed. -/
def atLevel (m : Memory ι) (id : ι) (level : Level) : Memory ι :=
  m.map fun e => if Identity.same e.1 id then (e.1, { e.2 with level }) else e

end Memory

/-- Something that a writer asked its owner. -/
inductive Question where
  | assembly (name : Bytes)
  | type (assembly : Row) (id : TypeIdentity)

/-- The owner's answers, where the owner wants to be asked.  With a null row the writer goes on as if it had not asked. -/
structure Hooks where
  assembly : Option (Bytes → Row)
  type : Option (Row → TypeIdentity → Row)

/-- A module to write to, what of the catalog has been written so far, and what has been asked. -/
structure Writer where
  image : Live.ImageId
  hooks : Hooks
  types : Memory TypeIdentity
  fields : Memory MemberIdentity
  methods : Memory MemberIdentity
  assemblies : List (Bytes × Row)
  questions : List Question

/-- A writer that has written nothing. -/
def Writer.start (image : Live.ImageId) (hooks : Hooks) : Writer :=
  ⟨image, hooks, [], [], [], [], []⟩

instance : Inhabited Writer := ⟨.start default ⟨none, none⟩⟩

/-! ### The computation -/

/-- The live modules and the writer at work on one of them. -/
structure WriteState where
  store : Live.Store
  writer : Writer

/-- A computation that writes entities.  It keeps what it has done when it fails. -/
abbrev Writing := ExceptT (Failure WriteFault) (StateM WriteState)

namespace Writing

/-- Stops with a fault. -/
def refuse {α : Type} (f : WriteFault) : Writing α := throw (.fault f)

/-- The level must be known, and not above `highest`. -/
def checkLevel (highest asked : Level) : Writing Unit :=
  if asked < .reference ∨ highest < asked then refuse (.levelOutOfRange highest asked)
  else pure ()

def store : Writing Live.Store := do return (← get).store

def writer : Writing Writer := do return (← get).writer

def modifyStore (f : Live.Store → Live.Store) : Writing Unit :=
  modify fun w => { w with store := f w.store }

def modifyWriter (f : Writer → Writer) : Writing Unit :=
  modify fun w => { w with writer := f w.writer }

/-- Adds something new to the store. -/
def making {α : Type} (make : Live.ImageId → Live.Store → α × Live.Store) : Writing α := do
  let w ← get
  let (a, s) := make w.writer.image w.store
  set { w with store := s }
  return a

/-- Adds something to the store in a way that has a contract. -/
def tryMaking {α : Type}
    (make : Live.ImageId → Live.Store → Except (Failure WriteFault) (α × Live.Store)) :
    Writing α := do
  let w ← get
  match make w.writer.image w.store with
  | .ok (a, s) =>
      set { w with store := s }
      return a
  | .error e   => throw e

/-- Changes the store in a way that has a contract. -/
def changing (f : Live.Store → Except (Failure WriteFault) Live.Store) : Writing Unit := do
  match f (← get).store with
  | .ok s    => modifyStore fun _ => s
  | .error e => throw e

/-- There must be something if its kind is asked for. -/
def askable (isNull : Bool) : Writing Unit :=
  if isNull then throw Live.nothingToAsk else pure ()

/-- The value of a catalog's map under a token. -/
def lookUp {named : Bool} {α : Type} (m : TokenMap named α) (t : Token) : Writing α :=
  match m.get t with
  | .ok a    => pure a
  | .error f => refuse (.store f)

end Writing

end CilCatalog
