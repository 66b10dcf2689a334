import CilCatalog.Catalog

/-!
# Where tokens are used

Entities refer to each other by tokens, and the place where a token stands says what it stands for: a type, unless it is the operand of an instruction or of a method specification, a child, an accessor, an override or the constructor of a custom attribute.  `uses` lists the tokens of an entity with the kind of entity that each of them stands for.

A catalog is *closed* (`Catalog.Closed`) if every token that is used in it has an entry in the map of its kind.
-/

namespace CilCatalog

/-- The three kinds of entity. -/
inductive EntityKind where
  | type | field | method
deriving DecidableEq, Repr

/-- A token, and the kind of entity that it stands for. -/
structure Use where
  kind : EntityKind
  token : Token
deriving DecidableEq

def Token.uses (k : EntityKind) (t : Token) : List Use := [⟨k, t⟩]

/-! ### Trees -/

/-- What an instruction operand of this kind stands for. -/
def OperandKind.entity : OperandKind → EntityKind
  | type   => .type
  | field  => .field
  | method => .method

mutual

/-- The tokens of a tree that stands for an entity of kind `k`.  Inside a signature they stand for types; the first part of a method specification stands for a method. -/
def SigTree.uses (k : EntityKind) : SigTree → List Use
  | .token t        => t.uses k
  | .typeSig _ as   => SigTree.usesOfAll as
  | .callSig _ as   => SigTree.usesOfAll as
  | .int32 _        => []
  | .methodSpec m i => m.uses .method ++ i.uses .type
  | .inline o t     => t.uses o.entity

/-- The tokens of trees that stand for types. -/
def SigTree.usesOfAll : List SigTree → List Use
  | []      => []
  | a :: as => a.uses .type ++ SigTree.usesOfAll as

end

/-! ### Parts of definitions -/

def CustomAttribute.uses (a : CustomAttribute) : List Use := a.constructor.uses .method

/-- The uses in a part that may be absent. -/
def usesOf {α : Type} (f : α → List Use) (o : Option α) : List Use := o.toList.flatMap f

/-- The uses in a list that may be absent. -/
def usesOfList {α : Type} (f : α → List Use) (as : Option (List α)) : List Use :=
  (as.getD []).flatMap f

section Absent

variable {α : Type} {f : α → List Use}

@[simp] theorem usesOf_none : usesOf f none = [] := rfl

@[simp] theorem usesOf_some (a : α) : usesOf f (some a) = f a := List.append_nil _

@[simp] theorem usesOfList_none : usesOfList f none = [] := rfl

@[simp] theorem usesOfList_some (as : List α) : usesOfList f (some as) = as.flatMap f := rfl

end Absent

def GenericParameter.uses (p : GenericParameter) : List Use :=
  usesOfList (SigTree.uses .type) p.constraints

def Property.uses (p : Property) : List Use :=
  p.signature.uses .type ++ usesOf (Token.uses .method) p.getMethod ++
    usesOf (Token.uses .method) p.setMethod ++ usesOfList CustomAttribute.uses p.customAttributes

def Event.uses (e : Event) : List Use :=
  e.type.uses .type ++ usesOf (Token.uses .method) e.addMethod ++
    usesOf (Token.uses .method) e.removeMethod ++ usesOf (Token.uses .method) e.invokeMethod ++
    usesOfList CustomAttribute.uses e.customAttributes

def Parameter.uses (p : Parameter) : List Use := usesOfList CustomAttribute.uses p.customAttributes

def Operand.uses : Operand → List Use
  | tree t => t.uses .type
  | _      => []

def Instruction.uses (i : Instruction) : List Use := usesOf Operand.uses i.operand

def ExceptionHandler.uses (h : ExceptionHandler) : List Use := usesOf (SigTree.uses .type) h.catchType

def MethodBody.uses (b : MethodBody) : List Use :=
  b.instructions.flatMap Instruction.uses ++ b.handlers.flatMap ExceptionHandler.uses ++
    b.locals.flatMap (SigTree.uses .type)

/-! ### Entities -/

def MemberIdentity.uses (m : MemberIdentity) : List Use := m.type.uses .type ++ m.signature.uses .type

def TypeData.uses (d : TypeData) : List Use :=
  usesOf (SigTree.uses .type) d.baseType ++ usesOfList (SigTree.uses .type) d.interfaces ++
    usesOfList GenericParameter.uses d.genericParameters ++
    usesOfList CustomAttribute.uses d.customAttributes ++
    usesOfList (Token.uses .type) d.nestedTypes ++ usesOfList (Token.uses .field) d.fields ++
    usesOfList (Token.uses .method) d.methods ++ usesOfList Property.uses d.properties ++
    usesOfList Event.uses d.events

def FieldData.uses (d : FieldData) : List Use := usesOfList CustomAttribute.uses d.customAttributes

def MethodData.uses (d : MethodData) : List Use :=
  d.parameters.flatMap Parameter.uses ++ usesOf MethodBody.uses d.body ++
    usesOfList (Token.uses .method) d.overrides ++
    usesOfList GenericParameter.uses d.genericParameters ++
    usesOfList CustomAttribute.uses d.customAttributes

/-- The uses in an entity, given those in its identity and those in its data. -/
def Entity.uses {ι δ : Type} (identity : ι → List Use) (data : δ → List Use) (e : Entity ι δ) : List Use :=
  identity e.identity ++ usesOf data e.data?

section

variable {ι δ : Type} {identity : ι → List Use} {data : δ → List Use}

@[simp] theorem Entity.uses_reference (id : ι) :
    (Entity.reference id).uses identity data = identity id := List.append_nil _

@[simp] theorem Entity.uses_definition (id : ι) (d : δ) :
    (Entity.definition id d).uses identity data = identity id ++ data d := by
  rw [uses, Entity.data?, usesOf_some]
  rfl

end

/-- The identity of a type is made of names alone. -/
def TypeIdentity.uses (_ : TypeIdentity) : List Use := []

/-! ### Catalogs -/

namespace Catalog

/-- The tokens of the entities of a kind. -/
def keys (c : Catalog) : EntityKind → List Token
  | .type   => c.types.keys
  | .field  => c.fields.keys
  | .method => c.methods.keys

/-- All uses in the entities of a catalog. -/
def uses (c : Catalog) : List Use :=
  c.types.values.flatMap (Entity.uses TypeIdentity.uses TypeData.uses) ++
    c.fields.values.flatMap (Entity.uses MemberIdentity.uses FieldData.uses) ++
    c.methods.values.flatMap (Entity.uses MemberIdentity.uses MethodData.uses)

/-- Each token has an entry in the map of its kind. -/
def Covers (c : Catalog) (us : List Use) : Prop := ∀ u ∈ us, u.token ∈ c.keys u.kind

instance (c : Catalog) (us : List Use) : Decidable (c.Covers us) :=
  inferInstanceAs (Decidable (∀ u ∈ us, u.token ∈ c.keys u.kind))

/-- Every token that is used has an entry. -/
def Closed (c : Catalog) : Prop := c.Covers c.uses

instance (c : Catalog) : Decidable c.Closed := inferInstanceAs (Decidable (c.Covers c.uses))

end Catalog

end CilCatalog
