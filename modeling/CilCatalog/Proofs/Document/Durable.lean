import CilCatalog.Partition
import CilCatalog.Proofs.FloatBits
import CilCatalog.SigTree.Format

/-!
# What a document keeps

A catalog is *durable* if its document gives it back.  Not every catalog is: an index below zero is refused when a document is read, a tree without a text has no compact form, a constant is read as the element type it was declared with, and a signalling NaN comes back quiet.  Apart from these leaves, options have four bits, and named entities are counted with a signed number of 32 bits; indexed ones have no more tokens than that anyway.
-/

namespace CilCatalog

/-- An index is not negative. -/
def Token.Durable : Token → Prop
  | named _ => True
  | index i => 0 ≤ i.toInt

/-- A value is null, a string, or one of exactly the declared element type, and no signalling NaN. -/
structure Constant.Durable (c : Constant) : Prop where
  type : c.value = .null ∨ (∃ s, c.value = .string s) ∨
    ∃ e, c.value.elementType? = some e ∧ c.type = e.code
  quiet : ∀ b, c.value = .r4 b → ¬ FloatBits.IsSignalling b

/-! ### Parts of definitions -/

def CustomAttribute.Durable (a : CustomAttribute) : Prop := a.constructor.Durable

structure GenericParameter.Durable (p : GenericParameter) : Prop where
  constraints : ∀ ts ∈ p.constraints, ∀ t ∈ ts, t.Formattable

structure Property.Durable (p : Property) : Prop where
  signature : p.signature.Formattable
  getMethod : ∀ t ∈ p.getMethod, t.Durable
  setMethod : ∀ t ∈ p.setMethod, t.Durable
  customAttributes : ∀ as ∈ p.customAttributes, ∀ a ∈ as, a.Durable

structure Event.Durable (e : Event) : Prop where
  type : e.type.Formattable
  addMethod : ∀ t ∈ e.addMethod, t.Durable
  removeMethod : ∀ t ∈ e.removeMethod, t.Durable
  invokeMethod : ∀ t ∈ e.invokeMethod, t.Durable
  customAttributes : ∀ as ∈ e.customAttributes, ∀ a ∈ as, a.Durable

structure Parameter.Durable (p : Parameter) : Prop where
  constant : ∀ c ∈ p.constant, c.Durable
  customAttributes : ∀ as ∈ p.customAttributes, ∀ a ∈ as, a.Durable

def Operand.Durable : Operand → Prop
  | single b => ¬ FloatBits.IsSignalling b
  | tree t   => t.Formattable
  | _        => True

def Instruction.Durable (i : Instruction) : Prop := ∀ o ∈ i.operand, o.Durable

def ExceptionHandler.Durable (h : ExceptionHandler) : Prop := ∀ t ∈ h.catchType, t.Formattable

structure MethodBody.Durable (b : MethodBody) : Prop where
  instructions : ∀ i ∈ b.instructions, i.Durable
  handlers : ∀ h ∈ b.handlers, h.Durable
  locals : ∀ t ∈ b.locals, t.Formattable

/-! ### Identities and data -/

structure MemberIdentity.Durable (m : MemberIdentity) : Prop where
  type : m.type.Formattable
  signature : m.signature.Formattable

structure TypeData.Durable (d : TypeData) : Prop where
  baseType : ∀ t ∈ d.baseType, t.Formattable
  interfaces : ∀ ts ∈ d.interfaces, ∀ t ∈ ts, t.Formattable
  genericParameters : ∀ ps ∈ d.genericParameters, ∀ p ∈ ps, p.Durable
  customAttributes : ∀ as ∈ d.customAttributes, ∀ a ∈ as, a.Durable
  nestedTypes : ∀ ts ∈ d.nestedTypes, ∀ t ∈ ts, t.Durable
  fields : ∀ ts ∈ d.fields, ∀ t ∈ ts, t.Durable
  methods : ∀ ts ∈ d.methods, ∀ t ∈ ts, t.Durable
  properties : ∀ ps ∈ d.properties, ∀ p ∈ ps, p.Durable
  events : ∀ es ∈ d.events, ∀ e ∈ es, e.Durable

structure FieldData.Durable (d : FieldData) : Prop where
  constant : ∀ c ∈ d.constant, c.Durable
  customAttributes : ∀ as ∈ d.customAttributes, ∀ a ∈ as, a.Durable

structure MethodData.Durable (d : MethodData) : Prop where
  parameters : ∀ p ∈ d.parameters, p.Durable
  body : ∀ b ∈ d.body, b.Durable
  overrides : ∀ ts ∈ d.overrides, ∀ t ∈ ts, t.Durable
  genericParameters : ∀ ps ∈ d.genericParameters, ∀ p ∈ ps, p.Durable
  customAttributes : ∀ as ∈ d.customAttributes, ∀ a ∈ as, a.Durable

/-! ### Partitions and catalogs -/

/-- The references and definitions of a section are durable. -/
structure PartitionSection.Durable {ι δ : Type} (s : PartitionSection ι δ) (identity : ι → Prop)
    (data : δ → Prop) : Prop where
  references : ∀ e ∈ s.references.entries, identity e.2
  definitions : ∀ e ∈ s.definitions.entries, identity e.2.1 ∧ data e.2.2

structure Partition.Durable (p : Partition) : Prop where
  options : p.options.bits ≤ 15
  types : p.types.Durable (fun _ => True) TypeData.Durable
  fields : p.fields.Durable MemberIdentity.Durable FieldData.Durable
  methods : p.methods.Durable MemberIdentity.Durable MethodData.Durable

/-- The entities of a map are durable, and if they have names, a signed number of 32 bits counts them. -/
structure TokenMap.Durable {named : Bool} {ι δ : Type} (m : TokenMap named (Entity ι δ))
    (identity : ι → Prop) (data : δ → Prop) : Prop where
  size : named = true → m.size ≤ 0x80000000
  identities : ∀ e ∈ m.values, identity e.identity
  definitions : ∀ e ∈ m.values, ∀ d ∈ e.data?, data d

structure Catalog.Durable (c : Catalog) : Prop where
  options : c.options.bits ≤ 15
  types : c.types.Durable (fun _ => True) TypeData.Durable
  fields : c.fields.Durable MemberIdentity.Durable FieldData.Durable
  methods : c.methods.Durable MemberIdentity.Durable MethodData.Durable

end CilCatalog
