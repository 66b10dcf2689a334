import CilCatalog.Partition

/-!
# The trees of a catalog

Which signature trees stand in an entity, in the order in which its document writes them: the declaring type and the signature of a member, the base type, the interfaces and the constraints of a definition, the signatures of its properties and the types of its events, and the operands, catch types and locals of a body.
-/

namespace CilCatalog

namespace SigTree

mutual

/-- How many nodes lie inside each other. -/
def height : SigTree → Nat
  | token _        => 1
  | typeSig _ as   => heightOfAll as + 1
  | callSig _ as   => heightOfAll as + 1
  | int32 _        => 1
  | methodSpec m i => max m.height i.height + 1
  | inline _ o     => o.height + 1

/-- The greatest height of some trees. -/
def heightOfAll : List SigTree → Nat
  | []      => 0
  | a :: as => max a.height (heightOfAll as)

end

end SigTree

/-! ### Parts of definitions -/

def GenericParameter.trees (p : GenericParameter) : List SigTree := p.constraints.getD []

def Property.trees (p : Property) : List SigTree := [p.signature]

def Event.trees (e : Event) : List SigTree := [e.type]

def Operand.trees : Operand → List SigTree
  | tree t => [t]
  | _      => []

def Instruction.trees (i : Instruction) : List SigTree := i.operand.toList.flatMap Operand.trees

/-- The trees in a method body. -/
def MethodBody.trees (b : MethodBody) : List SigTree :=
  b.instructions.flatMap Instruction.trees ++ b.handlers.flatMap (·.catchType.toList) ++ b.locals

/-! ### Entities -/

/-- The identity of a type is made of names alone. -/
def TypeIdentity.trees (_ : TypeIdentity) : List SigTree := []

def MemberIdentity.trees (m : MemberIdentity) : List SigTree := [m.type, m.signature]

def TypeData.trees (d : TypeData) : List SigTree :=
  d.baseType.toList ++ d.interfaces.getD [] ++
    (d.genericParameters.getD []).flatMap GenericParameter.trees ++
    (d.properties.getD []).flatMap Property.trees ++ (d.events.getD []).flatMap Event.trees

/-- Nothing about a field but its identity is written with trees. -/
def FieldData.trees (_ : FieldData) : List SigTree := []

def MethodData.trees (d : MethodData) : List SigTree :=
  d.body.toList.flatMap MethodBody.trees ++
    (d.genericParameters.getD []).flatMap GenericParameter.trees

/-- The trees of an entity, given those of its identity and those of its data. -/
def Entity.trees {ι δ : Type} (identity : ι → List SigTree) (data : δ → List SigTree)
    (e : Entity ι δ) : List SigTree :=
  identity e.identity ++ e.data?.toList.flatMap data

/-! ### Partitions and catalogs -/

/-- The trees of the references of a section, and then those of its definitions. -/
def PartitionSection.trees {ι δ : Type} (identity : ι → List SigTree) (data : δ → List SigTree)
    (s : PartitionSection ι δ) : List SigTree :=
  s.references.entries.flatMap (fun e => identity e.2) ++
    s.definitions.entries.flatMap fun e => identity e.2.1 ++ data e.2.2

def Partition.trees (p : Partition) : List SigTree :=
  p.types.trees TypeIdentity.trees TypeData.trees ++
    p.fields.trees MemberIdentity.trees FieldData.trees ++
    p.methods.trees MemberIdentity.trees MethodData.trees

def Catalog.trees (c : Catalog) : List SigTree :=
  c.types.values.flatMap (Entity.trees TypeIdentity.trees TypeData.trees) ++
    c.fields.values.flatMap (Entity.trees MemberIdentity.trees FieldData.trees) ++
    c.methods.values.flatMap (Entity.trees MemberIdentity.trees MethodData.trees)

end CilCatalog
