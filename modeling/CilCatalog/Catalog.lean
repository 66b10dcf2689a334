import CilCatalog.Comparison
import CilCatalog.TokenMap

/-!
# Catalogs

A catalog owns every type, field and method of a module's portable metadata.  Entities refer to each other through tokens only, and whether tokens are names or indices is settled by the options: four switches, kept as the bits of a number; the bits above them have no meaning and are kept as they are.
-/

namespace CilCatalog

/-! ### Options -/

/-- What a catalog records. -/
structure Options where
  bits : UInt32
deriving DecidableEq, Repr

namespace Options

/-- Whether a bit is on. -/
def has (o : Options) (bit : UInt32) : Bool := o.bits &&& bit != 0

/-- Whether tokens are names and not indices. -/
def namedTokens (o : Options) : Bool := o.has 1

/-- Whether an assembly is recorded by its display name and not only by its simple name. -/
def fullAssemblyNames (o : Options) : Bool := o.has 2

/-- Whether method bodies are recorded. -/
def methodBodies (o : Options) : Bool := o.has 4

/-- Whether custom attributes are recorded. -/
def customAttributes (o : Options) : Bool := o.has 8

/-- Everything but named tokens. -/
def default : Options := ⟨14⟩

/-- All four switches on. -/
def all : Options := ⟨15⟩

/-- The same with names as tokens. -/
def withNamedTokens (o : Options) : Options := ⟨o.bits ||| 1⟩

instance : Inhabited Options := ⟨default⟩

end Options

/-! ### Entities under their tokens -/

/-- Portable metadata: options, and a token map for each kind of entity. -/
structure Catalog where
  options : Options
  types : TokenMap options.namedTokens TypeEntity
  fields : TokenMap options.namedTokens FieldEntity
  methods : TokenMap options.namedTokens MethodEntity

namespace Catalog

/-- A catalog without entities. -/
def empty (o : Options) : Catalog := ⟨o, .empty, .empty, .empty⟩

instance : Inhabited Catalog := ⟨empty default⟩

/-- How many types, fields and methods there are. -/
def counts (c : Catalog) : Nat × Nat × Nat := (c.types.size, c.fields.size, c.methods.size)

/-- The same tokens in the same order, with equal values. -/
def sameEntries {α : Type} (eq : α → α → Bool) : List (Token × α) → List (Token × α) → Bool :=
  Comparison.list fun a b => a.1 == b.1 && eq a.2 b.2

/-- The same options, and the same tokens in the same order with entities equal in full. -/
def same (a b : Catalog) : Bool :=
  a.options == b.options &&
    sameEntries Comparison.full.types a.types.entries b.types.entries &&
    sameEntries Comparison.full.fields a.fields.entries b.fields.entries &&
    sameEntries Comparison.full.methods a.methods.entries b.methods.entries

end Catalog

end CilCatalog
