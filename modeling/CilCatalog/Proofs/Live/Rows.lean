import CilCatalog.Live.Definition
import CilCatalog.Live.Store

/-!
# The rows that occur in a module

A definition holds rows, directly or inside of other rows and of signatures.  `rows` lists them all, and `Store.Occurs` says that a row is one of those that the definitions of a module hold.
-/

namespace CilCatalog.Live

mutual

/-- The row itself, and the rows inside of it. -/
def Row.rows : Row → List Row
  | .null                    => []
  | .assemblyRef id n        => [.assemblyRef id n]
  | .moduleRef id n          => [.moduleRef id n]
  | .typeDef t               => [.typeDef t]
  | .typeRef id ns n scope   => .typeRef id ns n scope :: scope.rows
  | .typeSpec id t           => .typeSpec id t :: t.rows
  | .fieldDef f              => [.fieldDef f]
  | .methodDef m             => [.methodDef m]
  | .memberRef id n c parent => .memberRef id n c parent :: (c.rows ++ parent.rows)
  | .methodSpec id m c       => .methodSpec id m c :: (m.rows ++ c.rows)

def TypeSig.rows : TypeSig → List Row
  | .null             => []
  | .leaf _ _         => []
  | .wrapper _ t      => t.rows
  | .fnPtr c          => c.rows
  | .named _ r        => r.rows
  | .generic _ _      => []
  | .array t _ _ _    => t.rows
  | .genericInst t as => t.rows ++ TypeSig.rowsOf as
  | .valueArray t _   => t.rows
  | .modifier _ r t   => r.rows ++ t.rows
  | .module _ t       => t.rows

def TypeSig.rowsOf : List TypeSig → List Row
  | []      => []
  | t :: ts => t.rows ++ TypeSig.rowsOf ts

def CallSig.rows : CallSig → List Row
  | .null                => []
  | .method _ _ _ t ps vs => t.rows ++ TypeSig.rowsOf ps ++ TypeSig.rowsOf vs
  | .field t             => t.rows
  | .locals ts           => TypeSig.rowsOf ts
  | .inst ts             => TypeSig.rowsOf ts

end

/-! ### Rows of definitions -/

def CustomAttribute.rows (a : CustomAttribute) : List Row := a.constructor.rows

def GenericParam.rows (p : GenericParam) : List Row := p.constraints.flatMap Row.rows

def ParamDef.rows (p : ParamDef) : List Row := p.customAttributes.flatMap CustomAttribute.rows

def PropertyDef.rows (p : PropertyDef) : List Row :=
  p.signature.rows ++ p.customAttributes.flatMap CustomAttribute.rows

def EventDef.rows (e : EventDef) : List Row :=
  e.type.rows ++ e.customAttributes.flatMap CustomAttribute.rows

def Operand.rows : Operand → List Row
  | .row r       => r.rows
  | .signature c => c.rows
  | _            => []

def MethodBody.rows (b : MethodBody) : List Row :=
  b.instructions.flatMap (·.operand.rows) ++ b.handlers.flatMap (·.catchType.rows) ++
    TypeSig.rowsOf b.locals

def TypeDef.rows (d : TypeDef) : List Row :=
  d.baseType.rows ++ d.interfaces.flatMap Row.rows ++ d.genericParams.flatMap GenericParam.rows ++
    d.customAttributes.flatMap CustomAttribute.rows ++ d.properties.flatMap PropertyDef.rows ++
    d.events.flatMap EventDef.rows

def FieldDef.rows (d : FieldDef) : List Row :=
  d.signature.rows ++ d.customAttributes.flatMap CustomAttribute.rows

def MethodDef.rows (d : MethodDef) : List Row :=
  d.signature.rows ++ d.params.flatMap ParamDef.rows ++ d.body.toList.flatMap MethodBody.rows ++
    d.overrides.flatMap Row.rows ++ d.genericParams.flatMap GenericParam.rows ++
    d.customAttributes.flatMap CustomAttribute.rows

theorem FieldDef.signature_rows (d : FieldDef) : d.signature.rows ⊆ d.rows :=
  List.subset_append_left _ _

theorem MethodDef.signature_rows (d : MethodDef) : d.signature.rows ⊆ d.rows := by
  simp only [MethodDef.rows, List.append_assoc]
  exact List.subset_append_left _ _

/-- A definition of module `i` holds the row. -/
inductive Store.Occurs (s : Store) (i : ImageId) (r : Row) : Prop where
  | type (t : TypeId) (ht : (s.typeDef t).image = i) (hr : r ∈ (s.typeDef t).rows)
  | field (t : TypeId) (f : FieldId) (ht : (s.typeDef t).image = i)
      (hf : (s.fieldDef f).declaring = some t) (hr : r ∈ (s.fieldDef f).rows)
  | method (t : TypeId) (m : MethodId) (ht : (s.typeDef t).image = i)
      (hm : (s.methodDef m).declaring = some t) (hr : r ∈ (s.methodDef m).rows)

end CilCatalog.Live
