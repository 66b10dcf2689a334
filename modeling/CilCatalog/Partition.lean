import CilCatalog.Catalog
import CilCatalog.Keyed

/-!
# Partitions

A partition holds what a catalog holds with references and definitions kept apart, each under the text of its token.  Indices tell the order across the two; names do not, so a partition of a catalog with named tokens also lists where the sequence of entities *turns*, that is, changes from references to definitions or back.  The sequence starts with references.
-/

namespace CilCatalog

/-- The references and definitions of one kind of entity, and where they take turns. -/
structure PartitionSection (ι δ : Type) where
  references : Keyed ι
  definitions : Keyed (ι × δ)
  turns : List Int32

namespace PartitionSection

variable {ι δ : Type}

def empty : PartitionSection ι δ := ⟨.empty, .empty, []⟩

instance : Inhabited (PartitionSection ι δ) := ⟨empty⟩

/-- How many entities there are. -/
def size (s : PartitionSection ι δ) : Nat := s.references.size + s.definitions.size

/-- The entity under a key. -/
def get? (s : PartitionSection ι δ) (k : Bytes) : Option (Entity ι δ) :=
  match s.references.get? k with
  | some id => some (.reference id)
  | none    => (s.definitions.get? k).map fun d => .definition d.1 d.2

end PartitionSection

/-- A catalog with references and definitions kept apart. -/
structure Partition where
  options : Options
  types : PartitionSection TypeIdentity TypeData
  fields : PartitionSection MemberIdentity FieldData
  methods : PartitionSection MemberIdentity MethodData

/-! ### From a catalog -/

namespace PartitionSection

variable {ι δ : Type}

/-- The positions at which the kind of entity changes; `defs` is the kind in front of position `n`. -/
def turnsFrom (defs : Bool) (n : Nat) : List (Entity ι δ) → List Int32
  | []      => []
  | e :: es =>
      let rest := turnsFrom e.isDefinition (n + 1) es
      if e.isDefinition = defs then rest else Int32.ofNat n :: rest

/-- Puts entities under the texts of their tokens, which must be distinct. -/
def split {φ : Type} :
    List (Token × Entity ι δ) → PartitionSection ι δ → Except (Failure φ) (PartitionSection ι δ)
  | [],           s => .ok s
  | (t, e) :: es, s =>
      let added := match e with
        | .reference id    => (s.references.add? t.text id).map fun m => { s with references := m }
        | .definition id d =>
            (s.definitions.add? t.text (id, d)).map fun m => { s with definitions := m }
      match added with
      | some s => split es s
      | none   => .error (.breach ("Duplicate token '" ++ t.text ++ "' in metadata container"))

/-- The section of a token map. -/
def ofMap {φ : Type} {named : Bool} (m : TokenMap named (Entity ι δ)) :
    Except (Failure φ) (PartitionSection ι δ) :=
  split m.entries { empty with turns := if named then turnsFrom false 0 m.values else [] }

end PartitionSection

/-- The partition of a catalog. -/
def Partition.ofCatalog {φ : Type} (c : Catalog) : Except (Failure φ) Partition := do
  let ts ← PartitionSection.ofMap c.types
  let fs ← PartitionSection.ofMap c.fields
  let ms ← PartitionSection.ofMap c.methods
  return ⟨c.options, ts, fs, ms⟩

/-! ### To a catalog -/

/-- Why a partition is not one of a catalog. -/
inductive PartitionFault where
  | noEntity (part : String) (i : Nat)
  | tooFewDefinitions (part : String)
  | tooFewReferences (part : String)
  | badName (part : String) (key : Bytes)
  | unusedTurns (part : String)
  | store (f : TokenMapFault)
deriving DecidableEq

namespace PartitionFault

def kind : PartitionFault → ErrorKind
  | store _ => .invalidArgument
  | _       => .invalidData

def message : PartitionFault → Bytes
  | noEntity p i        => p ++ ": no entity for index " ++ Bytes.decimal i
  | tooFewDefinitions p => p ++ ": orders ask for more definitions than there are"
  | tooFewReferences p  => p ++ ": orders ask for more references than there are"
  | badName p k         => p ++ ": '" ++ k ++ "' is not a valid token name"
  | unusedTurns p       => p ++ ": unused order entries"
  | store f             => f.message

instance : Fault PartitionFault where
  kind := kind
  message := message

end PartitionFault

namespace PartitionSection

variable {named : Bool} {ι δ : Type}

/-- Adds the entities with the `todo` indices from `i` on. -/
def joinIndexed (part : String) (s : PartitionSection ι δ) :
    Nat → Nat → TokenMap named (Entity ι δ) → Except PartitionFault (TokenMap named (Entity ι δ))
  | 0,        _, m => .ok m
  | todo + 1, i, m =>
      match s.get? (Bytes.decimal i) with
      | none   => .error (.noEntity part i)
      | some e =>
          match m.add (.index (Int32.ofNat i)) e with
          | .ok m    => joinIndexed part s todo (i + 1) m
          | .error f => .error (.store f)

/-- Adds an entity under a name. -/
def addNamed (part : String) (k : Bytes) (e : Entity ι δ) (m : TokenMap named (Entity ι δ)) :
    Except PartitionFault (TokenMap named (Entity ι δ)) :=
  match Token.ofName k with
  | .error _ => .error (.badName part k)
  | .ok t    =>
      match m.add t e with
      | .ok m    => .ok m
      | .error f => .error (.store f)

/-- The kind of entity at position `i`, given the kind in front of it, and the turns that are left. -/
def turn (i : Nat) (defs : Bool) : List Int32 → Bool × List Int32
  | []      => (defs, [])
  | n :: ns => if n.toInt = i then (!defs, ns) else (defs, n :: ns)

/-- Adds the `todo` entities from position `i` on, taking turns between the references and the definitions that are left. -/
def joinNamed (part : String) :
    Nat → Nat → Bool → List Int32 → List (Bytes × ι) → List (Bytes × (ι × δ)) →
      TokenMap named (Entity ι δ) → Except PartitionFault (TokenMap named (Entity ι δ))
  | 0,        _, _,    turns, _,  _,  m =>
      if turns.isEmpty then .ok m else .error (.unusedTurns part)
  | todo + 1, i, defs, turns, rs, ds, m =>
      match turn i defs turns, rs, ds with
      | (true, turns), rs, (k, id, d) :: ds  => do
          let m ← addNamed part k (.definition id d) m
          joinNamed part todo (i + 1) true turns rs ds m
      | (false, turns), (k, id) :: rs, ds    => do
          let m ← addNamed part k (.reference id) m
          joinNamed part todo (i + 1) false turns rs ds m
      | (true, _), _, []                     => .error (.tooFewDefinitions part)
      | (false, _), [], _                    => .error (.tooFewReferences part)

/-- The token map of a section. -/
def toMap (part : String) (s : PartitionSection ι δ) :
    Except PartitionFault (TokenMap named (Entity ι δ)) :=
  if named then
    joinNamed part s.size 0 false s.turns s.references.entries s.definitions.entries .empty
  else joinIndexed part s s.size 0 .empty

end PartitionSection

/-- The catalog of a partition. -/
def Partition.toCatalog (p : Partition) : Except PartitionFault Catalog := do
  let ts ← p.types.toMap "Types"
  let fs ← p.fields.toMap "Fields"
  let ms ← p.methods.toMap "Methods"
  return ⟨p.options, ts, fs, ms⟩

end CilCatalog
