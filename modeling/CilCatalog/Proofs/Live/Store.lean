import CilCatalog.Live.Store

/-!
# Looking up in changed stores

What a module and its definitions are after something has been made or changed.
-/

namespace CilCatalog.Live.Store

/-- The type is there, and of the module. -/
def Owns (s : Store) (i : ImageId) (t : TypeId) : Prop :=
  t.index < s.typeDefs.length ∧ (s.typeDef t).image = i

variable {s : Store}

/-! ### Changes -/

theorem typeDef_modifyType {t : TypeId} {f : TypeDef → TypeDef} (h : t.index < s.typeDefs.length) :
    (s.modifyType t f).typeDef t = f (s.typeDef t) := by
  simp [typeDef, modifyType, List.getElem?_eq_getElem h]

theorem typeDef_modifyType_of_le {t : TypeId} {f : TypeDef → TypeDef}
    (h : s.typeDefs.length ≤ t.index) : (s.modifyType t f).typeDef t = s.typeDef t := by
  simp [typeDef, modifyType, h]

theorem typeDef_modifyType_of_ne {t u : TypeId} {f : TypeDef → TypeDef} (h : u ≠ t) :
    (s.modifyType t f).typeDef u = s.typeDef u := by
  have : t.index ≠ u.index := fun e => h (by cases t; cases u; cases e; rfl)
  simp [typeDef, modifyType, this]

theorem fieldDef_modifyField {i : FieldId} {f : FieldDef → FieldDef}
    (h : i.index < s.fieldDefs.length) : (s.modifyField i f).fieldDef i = f (s.fieldDef i) := by
  simp [fieldDef, modifyField, List.getElem?_eq_getElem h]

theorem fieldDef_modifyField_of_le {i : FieldId} {f : FieldDef → FieldDef}
    (h : s.fieldDefs.length ≤ i.index) : (s.modifyField i f).fieldDef i = s.fieldDef i := by
  simp [fieldDef, modifyField, h]

theorem fieldDef_modifyField_of_ne {i k : FieldId} {f : FieldDef → FieldDef} (h : k ≠ i) :
    (s.modifyField i f).fieldDef k = s.fieldDef k := by
  have : i.index ≠ k.index := fun e => h (by cases i; cases k; cases e; rfl)
  simp [fieldDef, modifyField, this]

theorem methodDef_modifyMethod {i : MethodId} {f : MethodDef → MethodDef}
    (h : i.index < s.methodDefs.length) : (s.modifyMethod i f).methodDef i = f (s.methodDef i) := by
  simp [methodDef, modifyMethod, List.getElem?_eq_getElem h]

theorem methodDef_modifyMethod_of_le {i : MethodId} {f : MethodDef → MethodDef}
    (h : s.methodDefs.length ≤ i.index) : (s.modifyMethod i f).methodDef i = s.methodDef i := by
  simp [methodDef, modifyMethod, h]

theorem methodDef_modifyMethod_of_ne {i k : MethodId} {f : MethodDef → MethodDef} (h : k ≠ i) :
    (s.modifyMethod i f).methodDef k = s.methodDef k := by
  have : i.index ≠ k.index := fun e => h (by cases i; cases k; cases e; rfl)
  simp [methodDef, modifyMethod, this]

theorem image_modifyImage {i : ImageId} {f : Image → Image} (h : i.index < s.images.length) :
    (s.modifyImage i f).image i = f (s.image i) := by
  simp [image, modifyImage, List.getElem?_eq_getElem h]

@[simp] theorem length_modifyType (t : TypeId) (f : TypeDef → TypeDef) :
    (s.modifyType t f).typeDefs.length = s.typeDefs.length := List.length_modify ..

@[simp] theorem length_modifyField (i : FieldId) (f : FieldDef → FieldDef) :
    (s.modifyField i f).fieldDefs.length = s.fieldDefs.length := List.length_modify ..

@[simp] theorem length_modifyMethod (i : MethodId) (f : MethodDef → MethodDef) :
    (s.modifyMethod i f).methodDefs.length = s.methodDefs.length := List.length_modify ..

@[simp] theorem length_modifyImage (i : ImageId) (f : Image → Image) :
    (s.modifyImage i f).images.length = s.images.length := List.length_modify ..

/-! ### Additions -/

variable {s' : Store}

/-- One more type definition changes no other. -/
theorem typeDef_append {ds : List TypeDef} (h : s'.typeDefs = s.typeDefs ++ ds) {t : TypeId}
    (ht : t.index < s.typeDefs.length) : s'.typeDef t = s.typeDef t := by
  rw [typeDef, typeDef, h, List.getElem?_append_left ht]

theorem typeDef_new {d : TypeDef} (h : s'.typeDefs = s.typeDefs ++ [d]) :
    s'.typeDef ⟨s.typeDefs.length⟩ = d := by
  rw [typeDef, h]
  simp

theorem fieldDef_append {ds : List FieldDef} (h : s'.fieldDefs = s.fieldDefs ++ ds) {f : FieldId}
    (hf : f.index < s.fieldDefs.length) : s'.fieldDef f = s.fieldDef f := by
  rw [fieldDef, fieldDef, h, List.getElem?_append_left hf]

theorem fieldDef_new {d : FieldDef} (h : s'.fieldDefs = s.fieldDefs ++ [d]) :
    s'.fieldDef ⟨s.fieldDefs.length⟩ = d := by
  rw [fieldDef, h]
  simp

theorem methodDef_append {ds : List MethodDef} (h : s'.methodDefs = s.methodDefs ++ ds)
    {f : MethodId} (hf : f.index < s.methodDefs.length) : s'.methodDef f = s.methodDef f := by
  rw [methodDef, methodDef, h, List.getElem?_append_left hf]

theorem methodDef_new {d : MethodDef} (h : s'.methodDefs = s.methodDefs ++ [d]) :
    s'.methodDef ⟨s.methodDefs.length⟩ = d := by
  rw [methodDef, h]
  simp

/-- There is nothing in the lists of a type that there is not. -/
theorem typeDef_of_le {t : TypeId} (h : s.typeDefs.length ≤ t.index) : s.typeDef t = default := by
  rw [typeDef, List.getElem?_eq_none h]
  rfl

/-! ### What is there -/

/-- A row that is a definition is one of the store. -/
def There (s : Store) : Row → Prop
  | .typeDef t   => t.index < s.typeDefs.length
  | .fieldDef f  => f.index < s.fieldDefs.length
  | .methodDef f => f.index < s.methodDefs.length
  | _            => True

/-- There is not less than there was. -/
structure NoLess (s s' : Store) : Prop where
  types : s.typeDefs.length ≤ s'.typeDefs.length
  fields : s.fieldDefs.length ≤ s'.fieldDefs.length
  methods : s.methodDefs.length ≤ s'.methodDefs.length

theorem There.more {r : Row} (h : s.There r) (hn : s.NoLess s') : s'.There r := by
  cases r with
  | typeDef => exact Nat.lt_of_lt_of_le h hn.types
  | fieldDef => exact Nat.lt_of_lt_of_le h hn.fields
  | methodDef => exact Nat.lt_of_lt_of_le h hn.methods
  | _ => trivial

end CilCatalog.Live.Store
