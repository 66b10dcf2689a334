import CilCatalog.Catalog

/-!
# Comparisons are reflexive

Whatever the comparison, an entity equals itself, and identities are compared by an equivalence.  The lemmas follow the parts of an entity from the inside out; the lists come first, as they do in the definitions.
-/

namespace CilCatalog

namespace Comparison

variable {α : Type} {eq : α → α → Bool} (c : Comparison)

/-! ### Lists and options -/

@[simp] theorem list_self (h : ∀ a, eq a a = true) (as : List α) : list eq as as = true := by
  induction as with
  | nil => rfl
  | cons a as ih => rw [list, h, ih]; rfl

@[simp] theorem option_self (h : ∀ a, eq a a = true) (o : Option α) : option eq o o = true := by
  cases o with
  | none => rfl
  | some a => exact h a

@[simp] theorem optionalList_self (h : ∀ a, eq a a = true) (o : Option (List α)) :
    c.optionalList eq o o = true := by
  cases o with
  | none => rfl
  | some as => exact list_self h as

/-- Lists that are equal element by element are equal. -/
theorem eq_of_list {eq : α → α → Bool} (h : ∀ a b, eq a b = true → a = b) :
    ∀ as bs : List α, list eq as bs = true → as = bs
  | [],      [],      _ => rfl
  | [],      _ :: _,  e => nomatch e
  | _ :: _,  [],      e => nomatch e
  | a :: as, b :: bs, e => by
      obtain ⟨hab, e⟩ := Bool.and_eq_true_iff.1 e
      rw [h a b hab, eq_of_list h as bs e]

theorem list_symm (h : ∀ a b, eq a b = true → eq b a = true) :
    ∀ as bs : List α, list eq as bs = true → list eq bs as = true
  | [],      [],      _ => rfl
  | [],      _ :: _,  e => nomatch e
  | _ :: _,  [],      e => nomatch e
  | a :: as, b :: bs, e => by
      obtain ⟨hab, e⟩ := Bool.and_eq_true_iff.1 e
      exact Bool.and_eq_true_iff.2 ⟨h a b hab, list_symm h as bs e⟩

theorem list_trans (h : ∀ a b d, eq a b = true → eq b d = true → eq a d = true) :
    ∀ as bs ds : List α, list eq as bs = true → list eq bs ds = true → list eq as ds = true
  | [],      [],      [],      _, _  => rfl
  | [],      [],      _ :: _,  _, e' => nomatch e'
  | [],      _ :: _,  _,       e, _  => nomatch e
  | _ :: _,  [],      _,       e, _  => nomatch e
  | _ :: _,  _ :: _,  [],      _, e' => nomatch e'
  | a :: as, b :: bs, d :: ds, e, e' => by
      obtain ⟨hab, e⟩ := Bool.and_eq_true_iff.1 e
      obtain ⟨hbd, e'⟩ := Bool.and_eq_true_iff.1 e'
      exact Bool.and_eq_true_iff.2 ⟨h a b d hab hbd, list_trans h as bs ds e e'⟩

theorem optionalList_symm (h : ∀ a b, eq a b = true → eq b a = true) {o p : Option (List α)}
    (e : c.optionalList eq o p = true) : c.optionalList eq p o = true := by
  cases o with
  | none => cases p with
    | none => rfl
    | some bs => exact e
  | some as => cases p with
    | none => exact e
    | some bs => exact list_symm h as bs e

/-- An absent list is in between two others only if both are empty. -/
theorem optionalList_trans (h : ∀ a b d, eq a b = true → eq b d = true → eq a d = true)
    {o p q : Option (List α)} (e : c.optionalList eq o p = true) (e' : c.optionalList eq p q = true) :
    c.optionalList eq o q = true := by
  have empty : ∀ {as bs : List α}, list eq as bs = true → as.isEmpty = bs.isEmpty := by
    intro as bs e
    cases as with
    | nil => cases bs with
      | nil => rfl
      | cons b bs => exact nomatch e
    | cons a as => cases bs with
      | nil => exact nomatch e
      | cons b bs => rfl
  cases o with
  | none => cases p with
    | none => exact e'
    | some bs => cases q with
      | none => rfl
      | some ds =>
          rw [optionalList, empty e'] at e
          exact e
  | some as => cases p with
    | none => cases q with
      | none => exact e
      | some ds =>
          have has := List.isEmpty_iff.1 (Bool.and_eq_true_iff.1 e).2
          have hds := List.isEmpty_iff.1 (Bool.and_eq_true_iff.1 e').2
          rw [has, hds]
          rfl
    | some bs => cases q with
      | none =>
          rw [optionalList, ← empty e] at e'
          exact e'
      | some ds => exact list_trans h as bs ds e e'

/-! ### Identities -/

theorem typeIdentity_eq_true {a b : TypeIdentity} : c.typeIdentity a b = true ↔
    a.name = b.name ∧ a.ns = b.ns ∧ a.assembly = b.assembly ∧
      c.optionalList (· == ·) a.enclosing b.enclosing = true := by
  simp only [typeIdentity, Bool.and_eq_true, beq_iff_eq, and_assoc]

theorem memberIdentity_eq_true {a b : MemberIdentity} : c.memberIdentity a b = true ↔ a = b := by
  simp only [memberIdentity, Bool.and_eq_true, beq_iff_eq, and_assoc]
  constructor
  · rintro ⟨hn, ht, hs⟩
    cases a
    cases b
    cases hn
    cases ht
    cases hs
    rfl
  · rintro rfl
    exact ⟨rfl, rfl, rfl⟩

theorem typeIdentity_symm {a b : TypeIdentity} (h : c.typeIdentity a b = true) :
    c.typeIdentity b a = true := by
  obtain ⟨hn, hs, ha, he⟩ := c.typeIdentity_eq_true.1 h
  exact c.typeIdentity_eq_true.2
    ⟨hn.symm, hs.symm, ha.symm, c.optionalList_symm (fun _ _ => BEq.symm) he⟩

theorem typeIdentity_trans {a b d : TypeIdentity} (h : c.typeIdentity a b = true)
    (h' : c.typeIdentity b d = true) : c.typeIdentity a d = true := by
  obtain ⟨hn, hs, ha, he⟩ := c.typeIdentity_eq_true.1 h
  obtain ⟨hn', hs', ha', he'⟩ := c.typeIdentity_eq_true.1 h'
  have trans : ∀ x y z : Bytes, (x == y) = true → (y == z) = true → (x == z) = true := by
    intro x y z e e'
    rw [beq_iff_eq] at e e' ⊢
    exact e.trans e'
  exact c.typeIdentity_eq_true.2
    ⟨hn.trans hn', hs.trans hs', ha.trans ha', c.optionalList_trans trans he he'⟩

/-! ### Parts of entities -/

@[simp] theorem typeIdentity_self (t : TypeIdentity) : c.typeIdentity t t = true := by
  simp [typeIdentity]

@[simp] theorem memberIdentity_self (m : MemberIdentity) : c.memberIdentity m m = true := by
  simp [memberIdentity]

@[simp] theorem value_self (v : ConstantValue) : value v v = true := by
  cases v <;> simp [value]

@[simp] theorem constant_self (k : Constant) : constant k k = true := by
  simp [constant]

@[simp] theorem customAttributes_self (o : Option (List CustomAttribute)) :
    c.customAttributes o o = true :=
  optionalList_self c (by simp [customAttribute]) o

@[simp] theorem genericParameters_self (o : Option (List GenericParameter)) :
    c.genericParameters o o = true :=
  optionalList_self c (by simp [genericParameter]) o

@[simp] theorem property_self (p : Property) : c.property p p = true := by
  simp [property]

@[simp] theorem event_self (e : Event) : c.event e e = true := by
  simp [event]

@[simp] theorem parameter_self (p : Parameter) : c.parameter p p = true := by
  simp [parameter]

@[simp] theorem operand_self (o : Operand) : operand o o = true := by
  cases o <;> simp [operand]

@[simp] theorem instruction_self (i : Instruction) : instruction i i = true := by
  simp [instruction]

@[simp] theorem handler_self (h : ExceptionHandler) : handler h h = true := by
  simp [handler]

@[simp] theorem body_self (b : MethodBody) : body b b = true := by
  simp [body]

/-! ### Entities -/

@[simp] theorem typeData_self (d : TypeData) : c.typeData d d = true := by
  simp [typeData, layout]

@[simp] theorem fieldData_self (d : FieldData) : c.fieldData d d = true := by
  simp [fieldData]

@[simp] theorem methodData_self (d : MethodData) : c.methodData d d = true := by
  simp [methodData, implMap]

theorem entity_self {ι δ : Type} {id : ι → ι → Bool} {data : δ → δ → Bool} (hi : ∀ i, id i i = true)
    (hd : ∀ d, data d d = true) (e : Entity ι δ) : c.entity id data e e = true := by
  cases e with
  | reference i => exact hi i
  | definition i d => rw [entity, hi, hd, Bool.or_true]; rfl

end Comparison

/-- A catalog is the same as itself. -/
theorem Catalog.same_self (c : Catalog) : c.same c = true := by
  have types := Comparison.entity_self .full Comparison.full.typeIdentity_self
    Comparison.full.typeData_self
  have fields := Comparison.entity_self .full Comparison.full.memberIdentity_self
    Comparison.full.fieldData_self
  have methods := Comparison.entity_self .full Comparison.full.memberIdentity_self
    Comparison.full.methodData_self
  simp [same, sameEntries, Comparison.types, Comparison.fields, Comparison.methods, types, fields,
    methods]

end CilCatalog
