import CilCatalog.Proofs.Comparison

/-!
# The full comparison is exact

Two entities are the same in full only if they are one and the same value: of one shape, with the same identity, and with the same data in every member, however deep.  Lists and options come first; they tell apart what their elements tell apart.  Then every part of an entity follows, from the inside out, with one lemma for each kind of record; a member that the comparison forgot, or took for another one, would leave its record without a proof.

Equality of values is as fine as it can be here.  Floating-point numbers are bit patterns, an absent list is not an empty one, and values of different kinds are different even if they hold the same number.
-/

namespace CilCatalog

namespace Comparison

variable {α : Type} {eq : α → α → Bool}

/-! ### Lists and options -/

@[simp] theorem list_eq_true (h : ∀ a b, eq a b = true ↔ a = b) {as bs : List α} :
    list eq as bs = true ↔ as = bs := by
  constructor
  · exact eq_of_list (fun a b => (h a b).1) as bs
  · rintro rfl
    exact list_self (fun a => (h a a).2 rfl) as

@[simp] theorem option_eq_true (h : ∀ a b, eq a b = true ↔ a = b) {o p : Option α} :
    option eq o p = true ↔ o = p := by
  cases o with
  | none => cases p <;> simp [option]
  | some a => cases p with
    | none => simp [option]
    | some b => simp [option, h a b]

/-- In full, a list that is absent is equal to none that is present. -/
@[simp] theorem full_optionalList (h : ∀ a b, eq a b = true ↔ a = b) {o p : Option (List α)} :
    full.optionalList eq o p = true ↔ o = p := by
  cases o with
  | none => cases p <;> simp [optionalList, full]
  | some as => cases p with
    | none => simp [optionalList, full]
    | some bs => simp [optionalList, list_eq_true h]

/-! ### Identities -/

@[simp] theorem full_typeIdentity {a b : TypeIdentity} : full.typeIdentity a b = true ↔ a = b := by
  cases a
  cases b
  simp [typeIdentity, and_assoc]

/-! ### Parts of entities -/

/-- Values of different kinds differ, and values of one kind differ as their contents do. -/
@[simp] theorem value_eq_true {v w : ConstantValue} : value v w = true ↔ v = w := by
  cases v <;> cases w <;> simp [value]

@[simp] theorem constant_eq_true {k l : Constant} : constant k l = true ↔ k = l := by
  cases k
  cases l
  simp [constant]

@[simp] theorem customAttribute_eq_true {a b : CustomAttribute} :
    customAttribute a b = true ↔ a = b := by
  cases a
  cases b
  simp [customAttribute]

@[simp] theorem full_customAttributes {o p : Option (List CustomAttribute)} :
    full.customAttributes o p = true ↔ o = p := by
  simp [customAttributes]

@[simp] theorem full_genericParameter {p q : GenericParameter} :
    full.genericParameter p q = true ↔ p = q := by
  cases p
  cases q
  simp [genericParameter, and_assoc]

@[simp] theorem full_genericParameters {o p : Option (List GenericParameter)} :
    full.genericParameters o p = true ↔ o = p := by
  simp [genericParameters]

@[simp] theorem layout_eq_true {l k : ClassLayout} : layout l k = true ↔ l = k := by
  cases l
  cases k
  simp [layout]

@[simp] theorem full_property {p q : Property} : full.property p q = true ↔ p = q := by
  cases p
  cases q
  simp [property, and_assoc]

@[simp] theorem full_event {e f : Event} : full.event e f = true ↔ e = f := by
  cases e
  cases f
  simp [event, and_assoc]

@[simp] theorem full_parameter {p q : Parameter} : full.parameter p q = true ↔ p = q := by
  cases p
  cases q
  -- custom attributes are compared before the constant, which comes first in the record
  simp [parameter, and_assoc, and_comm, and_left_comm]

@[simp] theorem operand_eq_true {o p : Operand} : operand o p = true ↔ o = p := by
  cases o <;> cases p <;> simp [operand]

@[simp] theorem instruction_eq_true {i j : Instruction} : instruction i j = true ↔ i = j := by
  cases i
  cases j
  simp [instruction]

@[simp] theorem handler_eq_true {h k : ExceptionHandler} : handler h k = true ↔ h = k := by
  cases h
  cases k
  simp [handler, and_assoc, and_comm]

@[simp] theorem body_eq_true {b d : MethodBody} : body b d = true ↔ b = d := by
  cases b
  cases d
  simp [body, and_assoc, and_comm, and_left_comm]

@[simp] theorem implMap_eq_true {m n : ImplMap} : implMap m n = true ↔ m = n := by
  cases m
  cases n
  simp [implMap, and_assoc]

/-! ### Entities -/

@[simp] theorem full_typeData {d e : TypeData} : full.typeData d e = true ↔ d = e := by
  cases d
  cases e
  simp [typeData, and_assoc, and_comm, and_left_comm]

@[simp] theorem full_fieldData {d e : FieldData} : full.fieldData d e = true ↔ d = e := by
  cases d
  cases e
  simp [fieldData, and_assoc, and_comm, and_left_comm]

@[simp] theorem full_methodData {d e : MethodData} : full.methodData d e = true ↔ d = e := by
  cases d
  cases e
  simp [methodData, and_assoc, and_comm, and_left_comm]

/-- Entities of different shapes differ in full, and entities of one shape differ as their identities and their data do. -/
theorem full_entity {ι δ : Type} {id : ι → ι → Bool} {data : δ → δ → Bool}
    (hi : ∀ i j, id i j = true ↔ i = j) (hd : ∀ d e, data d e = true ↔ d = e) {e f : Entity ι δ} :
    full.entity id data e f = true ↔ e = f := by
  cases e with
  | reference i => cases f with
    | reference j => simp [entity, hi]
    | definition j y => simp [entity, full]
  | definition i x => cases f with
    | reference j => simp [entity, full]
    | definition j y => simp [entity, full, hi, hd]

/-- The comparison in full holds of two types, of two fields or of two methods if and only if they are the same in every member. -/
theorem full_is_exact :
    (∀ a b : TypeEntity, full.types a b = true ↔ a = b) ∧
      (∀ a b : FieldEntity, full.fields a b = true ↔ a = b) ∧
      (∀ a b : MethodEntity, full.methods a b = true ↔ a = b) := by
  refine ⟨?types, ?fields, ?methods⟩
  case types =>
    intro a b
    exact full_entity (fun _ _ => full_typeIdentity) (fun _ _ => full_typeData)
  case fields =>
    intro a b
    exact full_entity (fun _ _ => full.memberIdentity_eq_true) (fun _ _ => full_fieldData)
  case methods =>
    intro a b
    exact full_entity (fun _ _ => full.memberIdentity_eq_true) (fun _ _ => full_methodData)

end Comparison

end CilCatalog
