import CilCatalog.Catalog

/-!
# Registration of entities

A registry gives entities their tokens.  Entities are told apart by their identities, so that registering one twice gives the same token.  Each registration is for a level; a level above the one on record replaces the stored entity and is put on record, and a level below it changes nothing.  In a catalog with named tokens a new entity gets a name made from its own, with the least number behind it that makes it free.
-/

namespace CilCatalog

/-! ### Levels

A level is a number, so that one without a name can be asked for; levels compare by their numbers. -/

/-- How much of an entity is on record. -/
structure Level where
  code : Int32
deriving DecidableEq, Repr

namespace Level

/-- Only the identity. -/
def reference : Level := ⟨0⟩

/-- The data of a definition, but no children. -/
def definition : Level := ⟨1⟩

/-- The data of a definition and its children. -/
def withChildren : Level := ⟨2⟩

instance : Inhabited Level := ⟨reference⟩

instance : LT Level := ⟨fun a b => a.code < b.code⟩

instance : LE Level := ⟨fun a b => a.code ≤ b.code⟩

instance (a b : Level) : Decidable (a < b) := inferInstanceAs (Decidable (a.code < b.code))

instance (a b : Level) : Decidable (a ≤ b) := inferInstanceAs (Decidable (a.code ≤ b.code))

/-- The name of a level; a number without a level has a name of its own. -/
def name (l : Level) : String :=
  if l = reference then "Reference"
  else if l = definition then "Definition"
  else if l = withChildren then "DefinitionWithChildren"
  else "<invalid>"

theorem not_lt_of_le {a b : Level} (h : b ≤ a) : ¬ a < b :=
  Int32.not_lt.2 h

theorem le_of_not_lt {a b : Level} (h : ¬ a < b) : b ≤ a :=
  Int32.not_lt.1 h

end Level

/-! ### Ledgers -/

/-- Identities that entities are registered under. -/
class Identity (ι : Type) extends Named ι where
  /-- Whether two identities are of the same entity. -/
  same : ι → ι → Bool

instance : Identity TypeIdentity where
  same := Comparison.reference.typeIdentity

instance : Identity MemberIdentity where
  same := Comparison.reference.memberIdentity

/-- The token of a registered entity and the level on record. -/
structure Registration where
  token : Token
  level : Level
deriving DecidableEq

/-- The registrations of one kind of entity. -/
abbrev Ledger (ι : Type) := List (ι × Registration)

namespace Ledger

variable {ι δ : Type} [Identity ι]

/-- The registration of an identity. -/
def find? (l : Ledger ι) (id : ι) : Option Registration :=
  (List.find? (fun e => Identity.same e.1 id) l).map Prod.snd

/-- With the registration of an identity replaced, or put at the end if there is none. -/
def record (l : Ledger ι) (id : ι) (r : Registration) : Ledger ι :=
  match l with
  | []     => [(id, r)]
  | e :: l => if Identity.same e.1 id then (e.1, r) :: l else e :: record l id r

/-- The registrations of entities that are already stored. -/
def ofEntries (es : List (Token × Entity ι δ)) : Ledger ι :=
  es.foldl (fun l e =>
    l.record e.2.identity ⟨e.1, if e.2.isDefinition then .definition else .reference⟩) []

end Ledger

/-- Why an entity is not registered. -/
inductive RegistryFault where
  /-- A reference has no data to be registered with. -/
  | referenceAt (name : Bytes) (level : Level)
  /-- Only types have children. -/
  | childless (kind : String)
  /-- A member of a type without a root token gets no name. -/
  | noScope (member : Bytes)
  | namesExhausted (base : Bytes)
  | badName (f : NameFault)
  | store (f : TokenMapFault)
deriving DecidableEq

namespace RegistryFault

def kind : RegistryFault → ErrorKind
  | namesExhausted _ => .invalidOperation
  | _                => .invalidArgument

def message : RegistryFault → Bytes
  | referenceAt name l  =>
      "Cannot register the reference '" ++ name ++ "' at " ++ l.name ++ " level"
  | childless kind      => kind ++ " have no children; use Definition level"
  | noScope member      =>
      "Cannot derive a name for '" ++ member ++ "': declaring type has no scope type"
  | namesExhausted base => "Ran out of unique names for '" ++ base ++ "'"
  | badName f           => f.message
  | store f             => f.message

instance : Fault RegistryFault where
  kind := kind
  message := message

end RegistryFault

/-- What a registration tells: the token, and the level that was on record before, or the level asked for if there was none. -/
structure Registered where
  token : Token
  oldLevel : Level
deriving DecidableEq

namespace Registry

/-! ### Names for new entities -/

section Names

variable (taken : Token → Bool)

/-- The numbers from which one is taken to make a name free: from two up to, but without, the greatest 32-bit integer. -/
def lastSuffix : Nat := 0x7FFFFFFE

/-- The first free name among `base_n`, `base_(n+1)`, … of which `tries` are left to try. -/
def firstFree (base : Bytes) : Nat → Nat → Except RegistryFault Token
  | 0,         _ => .error (.namesExhausted base)
  | tries + 1, n =>
      match Token.ofName (base ++ octet '_' :: Bytes.decimal n) with
      | .error f => .error (.badName f)
      | .ok t    => if taken t then firstFree base tries (n + 1) else .ok t

/-- A free name made from `text`: the text itself with reserved octets replaced, or that with a number behind. -/
def freshName (text : Bytes) : Except RegistryFault Token :=
  let base := Bytes.replaceAny reservedOctets (octet '_') text
  match Token.ofName base with
  | .error f => .error (.badName f)
  | .ok t    => if taken t then firstFree taken base (lastSuffix - 1) 2 else .ok t

/-- A free name for a member: the name of its declaring type, which is marked if it is not a plain one, and the member's own. -/
def freshMemberName (id : MemberIdentity) : Except RegistryFault Token :=
  match id.type with
  | .token t => freshName taken (t.text ++ "::" ++ id.name)
  | type     =>
      match type.scope with
      | some t => freshName taken (t.text ++ "<?>::" ++ id.name)
      | none   => .error (.noScope id.name)

end Names

/-! ### Registering one kind of entity -/

section Register

variable {named : Bool} {ι δ : Type} [Identity ι]

/-- The token for a new entity: the next index, or a free name. -/
def newToken (fresh : (Token → Bool) → ι → Except RegistryFault Token)
    (m : TokenMap named (Entity ι δ)) (id : ι) : Except RegistryFault Token :=
  if named then fresh m.contains id else .ok (.index (Int32.ofNat m.size))

/-- Stores an entity at a level, unless it is on record at that level or a higher one. -/
def registerIn (fresh : (Token → Bool) → ι → Except RegistryFault Token)
    (ledger : Ledger ι) (m : TokenMap named (Entity ι δ)) (e : Entity ι δ) (level : Level) :
    Except RegistryFault (Registered × Ledger ι × TokenMap named (Entity ι δ)) :=
  if level ≠ .reference ∧ ¬ e.isDefinition then .error (.referenceAt e.name level)
  else match ledger.find? e.identity with
    | some r =>
        if r.level < level then
          match m.set r.token e with
          | .ok m'   => .ok (⟨r.token, r.level⟩, ledger.record e.identity ⟨r.token, level⟩, m')
          | .error f => .error (.store f)
        else .ok (⟨r.token, r.level⟩, ledger, m)
    | none   =>
        match newToken fresh m e.identity with
        | .error f => .error f
        | .ok t    =>
            match m.add t e with
            | .ok m'   => .ok (⟨t, level⟩, ledger.record e.identity ⟨t, level⟩, m')
            | .error f => .error (.store f)

end Register

end Registry

/-- The registrations of the three kinds of entity. -/
structure Registry where
  types : Ledger TypeIdentity
  fields : Ledger MemberIdentity
  methods : Ledger MemberIdentity
deriving DecidableEq

namespace Registry

/-- Nothing registered. -/
def empty : Registry := ⟨[], [], []⟩

instance : Inhabited Registry := ⟨empty⟩

/-- The registry that knows what is in a catalog.  Definitions are on record without their children. -/
def ofCatalog (c : Catalog) : Registry :=
  ⟨.ofEntries c.types.entries, .ofEntries c.fields.entries, .ofEntries c.methods.entries⟩

def registerType (r : Registry) (c : Catalog) (e : TypeEntity) (level : Level) :
    Except RegistryFault (Registered × Registry × Catalog) := do
  let (u, l, m) ← registerIn (fun m id => freshName m id.name) r.types c.types e level
  return (u, { r with types := l }, { c with types := m })

def registerField (r : Registry) (c : Catalog) (e : FieldEntity) (level : Level) :
    Except RegistryFault (Registered × Registry × Catalog) := do
  if level = .withChildren then .error (.childless "Fields")
  let (u, l, m) ← registerIn freshMemberName r.fields c.fields e level
  return (u, { r with fields := l }, { c with fields := m })

def registerMethod (r : Registry) (c : Catalog) (e : MethodEntity) (level : Level) :
    Except RegistryFault (Registered × Registry × Catalog) := do
  if level = .withChildren then .error (.childless "Methods")
  let (u, l, m) ← registerIn freshMemberName r.methods c.methods e level
  return (u, { r with methods := l }, { c with methods := m })

end Registry

end CilCatalog
