import CilCatalog.Proofs.Writing.Writers

/-!
# Members are in the lists of their types

A type of a module has in its lists exactly the types, fields and methods that say that they are declared by it, and the module has in its list exactly its types that are in no other (`Store.Filed`).  Writers keep it so: what they make gets into one list, and what they put in order has been there.

* `Store.Enrols`: the lists get what is new, each where it says that it belongs.
* `Filed.enrols`: lists that hold what they should go on doing so.
* `Act.enrols`: what the acts of a writer do to the lists.
-/

namespace CilCatalog

open Live

namespace Live.Store

variable {s s' : Store} {i : ImageId} {t o : TypeId}

/-! ### Lists -/

/-- The lists of a module and its types hold what belongs there, and nothing else.  Declaring types are there. -/
structure Filed (i : ImageId) (s : Store) : Prop where
  typeOuter : ∀ {n t : TypeId}, (s.typeDef n).declaring = some t → t.index < s.typeDefs.length
  fieldOuter : ∀ {f : FieldId} {t}, (s.fieldDef f).declaring = some t →
    t.index < s.typeDefs.length
  methodOuter : ∀ {f : MethodId} {t}, (s.methodDef f).declaring = some t →
    t.index < s.typeDefs.length
  tops : ∀ {t}, t ∈ (s.image i).types ↔ s.Owns i t ∧ (s.typeDef t).declaring = none
  nested : ∀ {t}, s.Owns i t → ∀ {n},
    n ∈ (s.typeDef t).nestedTypes ↔ (s.typeDef n).declaring = some t
  fields : ∀ {t}, s.Owns i t → ∀ {f},
    f ∈ (s.typeDef t).fields ↔ (s.fieldDef f).declaring = some t
  methods : ∀ {t}, s.Owns i t → ∀ {f},
    f ∈ (s.typeDef t).methods ↔ (s.methodDef f).declaring = some t

/-- Definitions keep their heads, and what is new gets into the list that it says it belongs to. -/
structure Enrols (i : ImageId) (s s' : Store) : Prop extends s.Extends s' where
  typeOuter : ∀ {n t : TypeId}, s.typeDefs.length ≤ n.index → (s'.typeDef n).declaring = some t →
    t.index < s.typeDefs.length
  fieldOuter : ∀ {f : FieldId} {t}, s.fieldDefs.length ≤ f.index →
    (s'.fieldDef f).declaring = some t → t.index < s.typeDefs.length
  methodOuter : ∀ {f : MethodId} {t}, s.methodDefs.length ≤ f.index →
    (s'.methodDef f).declaring = some t → t.index < s.typeDefs.length
  tops : ∀ {t}, t ∈ (s'.image i).types ↔ t ∈ (s.image i).types ∨
    s.typeDefs.length ≤ t.index ∧ s'.Owns i t ∧ (s'.typeDef t).declaring = none
  nestedIn : ∀ {t n}, n ∈ (s'.typeDef t).nestedTypes ↔ n ∈ (s.typeDef t).nestedTypes ∨
    s.typeDefs.length ≤ n.index ∧ (s'.typeDef n).declaring = some t
  fieldsIn : ∀ {t f}, f ∈ (s'.typeDef t).fields ↔ f ∈ (s.typeDef t).fields ∨
    s.fieldDefs.length ≤ f.index ∧ (s'.fieldDef f).declaring = some t
  methodsIn : ∀ {t f}, f ∈ (s'.typeDef t).methods ↔ f ∈ (s.typeDef t).methods ∨
    s.methodDefs.length ≤ f.index ∧ (s'.methodDef f).declaring = some t

/-- A list that holds what belongs there goes on doing so when it gets what is new. -/
theorem mem_list_iff {α : Type} {as as' : List α} {new belonged belongs : α → Prop}
    (list : ∀ {a}, a ∈ as' ↔ a ∈ as ∨ new a ∧ belongs a) (before : ∀ {a}, a ∈ as ↔ belonged a)
    (kept : ∀ {a}, ¬ new a → (belongs a ↔ belonged a)) (there : ∀ {a}, belonged a → ¬ new a)
    {a : α} : a ∈ as' ↔ belongs a := by
  rw [list, before]
  constructor
  · rintro (h | ⟨-, h⟩)
    · exact (kept (there h)).2 h
    · exact h
  · intro h
    by_cases ha : new a
    · exact .inr ⟨ha, h⟩
    · exact .inl ((kept ha).1 h)

section Declaring

variable (h : s.Filed i) (he : s.Enrols i s')

include h he

/-- Whatever is around a type has been there. -/
theorem Filed.typeOuter_enrols {n t : TypeId} (hn : (s'.typeDef n).declaring = some t) :
    t.index < s.typeDefs.length := by
  rcases Nat.lt_or_ge n.index s.typeDefs.length with hlt | hnew
  · exact h.typeOuter ((declaring_extends hlt he.toExtends).symm.trans hn)
  · exact he.typeOuter hnew hn

theorem Filed.fieldOuter_enrols {f : FieldId} {t} (hf : (s'.fieldDef f).declaring = some t) :
    t.index < s.typeDefs.length := by
  rcases Nat.lt_or_ge f.index s.fieldDefs.length with hlt | hnew
  · exact h.fieldOuter ((fieldDeclaring_extends hlt he.toExtends).symm.trans hf)
  · exact he.fieldOuter hnew hf

theorem Filed.methodOuter_enrols {f : MethodId} {t} (hf : (s'.methodDef f).declaring = some t) :
    t.index < s.typeDefs.length := by
  rcases Nat.lt_or_ge f.index s.methodDefs.length with hlt | hnew
  · exact h.methodOuter ((methodDeclaring_extends hlt he.toExtends).symm.trans hf)
  · exact he.methodOuter hnew hf

end Declaring

/-- Lists that hold what they should go on doing so. -/
theorem Filed.enrols (h : s.Filed i) (he : s.Enrols i s') : s'.Filed i := by
  have outer : ∀ {t : TypeId}, t.index < s.typeDefs.length → t.index < s'.typeDefs.length :=
    fun ht => Nat.lt_of_lt_of_le ht he.typesLe
  have typeKept : ∀ {n : TypeId}, ¬ s.typeDefs.length ≤ n.index →
      (s'.typeDef n).declaring = (s.typeDef n).declaring :=
    fun hn => declaring_extends (Nat.not_le.1 hn) he.toExtends
  have fieldKept : ∀ {f : FieldId}, ¬ s.fieldDefs.length ≤ f.index →
      (s'.fieldDef f).declaring = (s.fieldDef f).declaring :=
    fun hf => fieldDeclaring_extends (Nat.not_le.1 hf) he.toExtends
  have methodKept : ∀ {f : MethodId}, ¬ s.methodDefs.length ≤ f.index →
      (s'.methodDef f).declaring = (s.methodDef f).declaring :=
    fun hf => methodDeclaring_extends (Nat.not_le.1 hf) he.toExtends
  -- a type of the module has been one, or is new and nothing has been declared by it
  have owned : ∀ {t}, s'.Owns i t → t.index < s.typeDefs.length → s.Owns i t :=
    fun ht hlt => ⟨hlt, (image_extends hlt he.toExtends).symm.trans ht.2⟩
  have empty : ∀ {t : TypeId}, ¬ t.index < s.typeDefs.length → s.typeDef t = default :=
    fun ht => typeDef_of_le (Nat.not_lt.1 ht)
  refine ⟨fun hn => outer (h.typeOuter_enrols he hn), fun hf => outer (h.fieldOuter_enrols he hf),
    fun hf => outer (h.methodOuter_enrols he hf), ?_, fun {t} ht {n} => ?_, fun {t} ht {f} => ?_,
    fun {t} ht {f} => ?_⟩
  · refine mem_list_iff he.tops h.tops (fun ht => ?_) fun ht => Nat.not_le.2 ht.1.1
    rw [typeKept ht]
    refine and_congr_left fun _ => ⟨fun hown => owned hown (Nat.not_le.1 ht), fun hown =>
      hown.extends he.toExtends⟩
  · by_cases hlt : t.index < s.typeDefs.length
    · refine mem_list_iff he.nestedIn (h.nested (owned ht hlt)) (fun hn => by rw [typeKept hn])
        fun hn => Nat.not_le.2 (type_lt hn)
    · rw [he.nestedIn, empty hlt]
      exact ⟨fun hn => (hn.resolve_left List.not_mem_nil).2,
        fun hn => absurd (h.typeOuter_enrols he hn) hlt⟩
  · by_cases hlt : t.index < s.typeDefs.length
    · refine mem_list_iff he.fieldsIn (h.fields (owned ht hlt)) (fun hf => by rw [fieldKept hf])
        fun hf => Nat.not_le.2 (field_lt hf)
    · rw [he.fieldsIn, empty hlt]
      exact ⟨fun hf => (hf.resolve_left List.not_mem_nil).2,
        fun hf => absurd (h.fieldOuter_enrols he hf) hlt⟩
  · by_cases hlt : t.index < s.typeDefs.length
    · refine mem_list_iff he.methodsIn (h.methods (owned ht hlt)) (fun hf => by rw [methodKept hf])
        fun hf => Nat.not_le.2 (method_lt hf)
    · rw [he.methodsIn, empty hlt]
      exact ⟨fun hf => (hf.resolve_left List.not_mem_nil).2,
        fun hf => absurd (h.methodOuter_enrols he hf) hlt⟩

/-! ### What is made -/

section New

/-- The only new type is the one that is put at the end. -/
theorem new_type_iff {d : TypeDef} (h : s'.typeDefs = s.typeDefs ++ [d]) {n : TypeId} :
    s.typeDefs.length ≤ n.index ∧ (s'.typeDef n).declaring = some t ↔
      n = ⟨s.typeDefs.length⟩ ∧ d.declaring = some t := by
  constructor
  · rintro ⟨hle, hn⟩
    have hlt := type_lt hn
    rw [h, List.length_append] at hlt
    obtain ⟨k⟩ := n
    obtain rfl : k = s.typeDefs.length := Nat.le_antisymm (Nat.le_of_lt_succ hlt) hle
    rw [typeDef_new h] at hn
    exact ⟨rfl, hn⟩
  · rintro ⟨rfl, hd⟩
    exact ⟨Nat.le_refl _, by rw [typeDef_new h, hd]⟩

theorem new_field_iff {d : FieldDef} (h : s'.fieldDefs = s.fieldDefs ++ [d]) {f : FieldId} :
    s.fieldDefs.length ≤ f.index ∧ (s'.fieldDef f).declaring = some t ↔
      f = ⟨s.fieldDefs.length⟩ ∧ d.declaring = some t := by
  constructor
  · rintro ⟨hle, hf⟩
    have hlt := field_lt hf
    rw [h, List.length_append] at hlt
    obtain ⟨k⟩ := f
    obtain rfl : k = s.fieldDefs.length := Nat.le_antisymm (Nat.le_of_lt_succ hlt) hle
    rw [fieldDef_new h] at hf
    exact ⟨rfl, hf⟩
  · rintro ⟨rfl, hd⟩
    exact ⟨Nat.le_refl _, by rw [fieldDef_new h, hd]⟩

theorem new_method_iff {d : MethodDef} (h : s'.methodDefs = s.methodDefs ++ [d]) {f : MethodId} :
    s.methodDefs.length ≤ f.index ∧ (s'.methodDef f).declaring = some t ↔
      f = ⟨s.methodDefs.length⟩ ∧ d.declaring = some t := by
  constructor
  · rintro ⟨hle, hf⟩
    have hlt := method_lt hf
    rw [h, List.length_append] at hlt
    obtain ⟨k⟩ := f
    obtain rfl : k = s.methodDefs.length := Nat.le_antisymm (Nat.le_of_lt_succ hlt) hle
    rw [methodDef_new h] at hf
    exact ⟨rfl, hf⟩
  · rintro ⟨rfl, hd⟩
    exact ⟨Nat.le_refl _, by rw [methodDef_new h, hd]⟩

/-- Where there are no more definitions, none is new. -/
theorem not_new_type (h : s'.typeDefs.length = s.typeDefs.length) {n : TypeId} :
    ¬ (s.typeDefs.length ≤ n.index ∧ (s'.typeDef n).declaring = some t) :=
  fun hn => absurd (type_lt hn.2) (Nat.not_lt.2 (h ▸ hn.1))

theorem not_new_field (h : s'.fieldDefs.length = s.fieldDefs.length) {f : FieldId} :
    ¬ (s.fieldDefs.length ≤ f.index ∧ (s'.fieldDef f).declaring = some t) :=
  fun hf => absurd (field_lt hf.2) (Nat.not_lt.2 (h ▸ hf.1))

theorem not_new_method (h : s'.methodDefs.length = s.methodDefs.length) {f : MethodId} :
    ¬ (s.methodDefs.length ≤ f.index ∧ (s'.methodDef f).declaring = some t) :=
  fun hf => absurd (method_lt hf.2) (Nat.not_lt.2 (h ▸ hf.1))

/-- What a type that is made inside another has been made as. -/
theorem head_createNestedType (ns name : Bytes) (u : TypeId) :
    ((s.createNestedType i ns name o).2.typeDef u).head = (({ s with
      typeDefs := s.typeDefs ++ [{ image := i, ns, name, declaring := some o }] } : Store).typeDef
        u).head :=
  head_modifyType (t := o)
    (f := fun d => { d with nestedTypes := d.nestedTypes ++ [⟨s.typeDefs.length⟩] }) (fun _ => rfl) u

theorem length_createNestedType (ns name : Bytes) :
    (s.createNestedType i ns name o).2.typeDefs.length = s.typeDefs.length + 1 :=
  (length_modifyType o _).trans List.length_append

theorem new_nested_iff (ns name : Bytes) {n : TypeId} :
    s.typeDefs.length ≤ n.index ∧
        ((s.createNestedType i ns name o).2.typeDef n).declaring = some t ↔
      n = ⟨s.typeDefs.length⟩ ∧ o = t := by
  have declaring : ((s.createNestedType i ns name o).2.typeDef n).declaring = _ :=
    congrArg (·.2.2.2) (head_createNestedType ns name n)
  rw [declaring]
  exact (new_type_iff rfl).trans (and_congr_right fun _ => Option.some_inj)

/-- The only new type is in another. -/
theorem nested_of_new (ns name : Bytes) {n : TypeId} (hle : s.typeDefs.length ≤ n.index)
    (hlt : n.index < (s.createNestedType i ns name o).2.typeDefs.length) :
    ((s.createNestedType i ns name o).2.typeDef n).declaring = some o := by
  rw [length_createNestedType] at hlt
  obtain ⟨k⟩ := n
  obtain rfl : k = s.typeDefs.length := Nat.le_antisymm (Nat.le_of_lt_succ hlt) hle
  exact ((new_nested_iff ns name).2 ⟨rfl, rfl⟩).2

/-- A new type without children leaves the lists of types as they are. -/
theorem lists_append {d : TypeDef} (h : s'.typeDefs = s.typeDefs ++ [d]) (hn : d.nestedTypes = [])
    (hf : d.fields = []) (hm : d.methods = []) (u : TypeId) :
    (s'.typeDef u).nestedTypes = (s.typeDef u).nestedTypes ∧
      (s'.typeDef u).fields = (s.typeDef u).fields ∧
      (s'.typeDef u).methods = (s.typeDef u).methods := by
  rcases Nat.lt_trichotomy u.index s.typeDefs.length with hlt | heq | hgt
  · rw [typeDef_append h hlt]
    exact ⟨rfl, rfl, rfl⟩
  · obtain ⟨k⟩ := u
    obtain rfl : k = s.typeDefs.length := heq
    rw [typeDef_new h, typeDef_of_le (Nat.le_refl _)]
    exact ⟨hn, hf, hm⟩
  · have hge : s'.typeDefs.length ≤ u.index := by
      rw [h, List.length_append]
      exact hgt
    rw [typeDef_of_le hge, typeDef_of_le (Nat.le_of_lt hgt)]
    exact ⟨rfl, rfl, rfl⟩

end New

namespace Enrols

/-- Nothing is new, and the lists have the members that they had. -/
theorem of_lists (he : s.Extends s') (ht : s'.typeDefs.length = s.typeDefs.length)
    (hf : s'.fieldDefs.length = s.fieldDefs.length)
    (hm : s'.methodDefs.length = s.methodDefs.length)
    (tops : (s'.image i).types = (s.image i).types)
    (nested : ∀ {t n}, n ∈ (s'.typeDef t).nestedTypes ↔ n ∈ (s.typeDef t).nestedTypes)
    (fields : ∀ {t f}, f ∈ (s'.typeDef t).fields ↔ f ∈ (s.typeDef t).fields)
    (methods : ∀ {t f}, f ∈ (s'.typeDef t).methods ↔ f ∈ (s.typeDef t).methods) :
    s.Enrols i s' where
  toExtends := he
  typeOuter hle hn := absurd ⟨hle, hn⟩ (not_new_type ht)
  fieldOuter hle hn := absurd ⟨hle, hn⟩ (not_new_field hf)
  methodOuter hle hn := absurd ⟨hle, hn⟩ (not_new_method hm)
  tops := by
    intro t
    rw [tops, or_iff_left]
    exact fun h => absurd h.2.1.1 (Nat.not_lt.2 (ht ▸ h.1))
  nestedIn := nested.trans (or_iff_left (not_new_type ht)).symm
  fieldsIn := fields.trans (or_iff_left (not_new_field hf)).symm
  methodsIn := methods.trans (or_iff_left (not_new_method hm)).symm

/-- The definitions and the list of the module stay as they are. -/
theorem of_eq (ht : s'.typeDefs = s.typeDefs) (hf : s'.fieldDefs = s.fieldDefs)
    (hm : s'.methodDefs = s.methodDefs) (tops : (s'.image i).types = (s.image i).types) :
    s.Enrols i s' := by
  have same : ∀ u, s'.typeDef u = s.typeDef u := fun u => by rw [typeDef, ht, typeDef]
  exact of_lists (.of_eq ht hf hm) (by rw [ht]) (by rw [hf]) (by rw [hm]) tops
    (fun {t} => by rw [same]) (fun {t} => by rw [same]) fun {t} => by rw [same]

/-- A row may be put into a table. -/
theorem addRowTo (hi : i.index < s.images.length) (make : Nat → Row) {f : Image → Image}
    (hf : ∀ m, (f m).types = m.types) : s.Enrols i ((s.addRow make).2.modifyImage i f) := by
  refine of_eq rfl rfl rfl ?_
  rw [image_modifyImage (s := (s.addRow make).2) hi, hf]
  rfl

/-- What a type says may be changed, if its lists have the members that they had. -/
theorem modifyType {f : TypeDef → TypeDef} (hf : ∀ d, (f d).head = d.head)
    (nested : ∀ {n}, n ∈ (f (s.typeDef t)).nestedTypes ↔ n ∈ (s.typeDef t).nestedTypes)
    (fields : ∀ {k}, k ∈ (f (s.typeDef t)).fields ↔ k ∈ (s.typeDef t).fields)
    (methods : ∀ {k}, k ∈ (f (s.typeDef t)).methods ↔ k ∈ (s.typeDef t).methods) :
    s.Enrols i (s.modifyType t f) := by
  refine of_lists (.modifyType hf) (length_modifyType t f) rfl rfl rfl ?_ ?_ ?_
  all_goals
    intro u k
    rcases s.typeDef_modifyType_or t f u with heq | ⟨rfl, heq⟩
  · rw [heq]
  · rw [heq, nested]
  · rw [heq]
  · rw [heq, fields]
  · rw [heq]
  · rw [heq, methods]

theorem modifyField {k : FieldId} {f : FieldDef → FieldDef} (hf : ∀ d, (f d).head = d.head) :
    s.Enrols i (s.modifyField k f) :=
  of_lists (.modifyField hf) rfl (length_modifyField k f) rfl rfl .rfl .rfl .rfl

theorem modifyMethod {k : MethodId} {f : MethodDef → MethodDef} (hf : ∀ d, (f d).head = d.head) :
    s.Enrols i (s.modifyMethod k f) :=
  of_lists (.modifyMethod hf) rfl rfl (length_modifyMethod k f) rfl .rfl .rfl .rfl

/-- A new type gets into the list of its module. -/
theorem createType (hi : i.index < s.images.length) (ns name : Bytes) :
    s.Enrols i (s.createType i ns name).2 := by
  have hd : (s.createType i ns name).2.typeDefs = s.typeDefs ++ [{ image := i, ns, name }] := rfl
  have lists := lists_append hd rfl rfl rfl
  have himage : (s.createType i ns name).2.image i =
      { s.image i with types := (s.image i).types ++ [⟨s.typeDefs.length⟩] } := image_modifyImage hi
  refine ⟨(Grows.createType hi ns name).toExtends, fun hle hn => ?_,
    fun hle hf => absurd ⟨hle, hf⟩ (not_new_field rfl),
    fun hle hm => absurd ⟨hle, hm⟩ (not_new_method rfl), fun {t} => ?_, fun {t n} => ?_,
    fun {t f} => ?_, fun {t f} => ?_⟩
  · cases ((new_type_iff hd).1 ⟨hle, hn⟩).2
  · rw [himage, List.mem_append, List.mem_singleton]
    refine or_congr_right ⟨?_, fun ⟨hle, hown, _⟩ => ?_⟩
    · rintro rfl
      exact ⟨Nat.le_refl _, owns_new rfl, by rw [typeDef_new hd]⟩
    · have hlt := hown.1
      rw [hd, List.length_append] at hlt
      obtain ⟨k⟩ := t
      exact congrArg TypeId.mk (Nat.le_antisymm (Nat.le_of_lt_succ hlt) hle)
  · rw [(lists t).1, new_type_iff hd]
    exact (or_iff_left fun h => nomatch h.2).symm
  · rw [(lists t).2.1]
    exact (or_iff_left (not_new_field rfl)).symm
  · rw [(lists t).2.2]
    exact (or_iff_left (not_new_method rfl)).symm

/-- A type that is made inside another gets into the list of that. -/
theorem createNestedType (ns name : Bytes) (ho : o.index < s.typeDefs.length) :
    s.Enrols i (s.createNestedType i ns name o).2 := by
  let d : TypeDef := { image := i, ns, name, declaring := some o }
  let s₁ : Store := { s with typeDefs := s.typeDefs ++ [d] }
  have hd : s₁.typeDefs = s.typeDefs ++ [d] := rfl
  have ho₁ : o.index < s₁.typeDefs.length := by
    rw [hd, List.length_append]
    exact Nat.lt_succ_of_lt ho
  have lists := lists_append hd rfl rfl rfl
  let f : TypeDef → TypeDef := fun d => { d with nestedTypes := d.nestedTypes ++ [⟨s.typeDefs.length⟩] }
  refine ⟨(Grows.createNestedType ns name o).toExtends, fun hle hn => ?_,
    fun hle hf => absurd ⟨hle, hf⟩ (not_new_field rfl),
    fun hle hm => absurd ⟨hle, hm⟩ (not_new_method rfl), fun {t} => ?_, fun {t n} => ?_,
    fun {t g} => ?_, fun {t g} => ?_⟩
  · exact ((new_nested_iff ns name).1 ⟨hle, hn⟩).2 ▸ ho
  · refine (or_iff_left fun ⟨hle, hown, hnone⟩ => ?_).symm
    cases (nested_of_new ns name hle hown.1).symm.trans hnone
  · refine Iff.trans ?_ (or_congr_right (new_nested_iff ns name)).symm
    change n ∈ ((s₁.modifyType o f).typeDef t).nestedTypes ↔ _
    by_cases ht : t = o
    · subst ht
      rw [typeDef_modifyType ho₁, List.mem_append, List.mem_singleton, (lists t).1]
      exact or_congr_right (and_iff_left rfl).symm
    · rw [typeDef_modifyType_of_ne ht, (lists t).1]
      exact (or_iff_left fun h => ht h.2.symm).symm
  · refine Iff.trans ?_ (or_iff_left (not_new_field rfl)).symm
    change g ∈ ((s₁.modifyType o f).typeDef t).fields ↔ _
    rcases s₁.typeDef_modifyType_or o f t with heq | ⟨-, heq⟩ <;>
    · rw [heq]
      exact iff_of_eq (congrArg (g ∈ ·) (lists t).2.1)
  · refine Iff.trans ?_ (or_iff_left (not_new_method rfl)).symm
    change g ∈ ((s₁.modifyType o f).typeDef t).methods ↔ _
    rcases s₁.typeDef_modifyType_or o f t with heq | ⟨-, heq⟩ <;>
    · rw [heq]
      exact iff_of_eq (congrArg (g ∈ ·) (lists t).2.2)

/-- A new field gets into the list of its declaring type. -/
theorem createField (ht : t.index < s.typeDefs.length) (d : FieldDef) :
    s.Enrols i (s.createField t d).2 := by
  have hd : (s.createField t d).2.fieldDefs = s.fieldDefs ++ [{ d with declaring := some t }] := rfl
  have hlen : (s.createField t d).2.typeDefs.length = s.typeDefs.length := length_modifyType t _
  let f : TypeDef → TypeDef := fun d => { d with fields := d.fields ++ [⟨s.fieldDefs.length⟩] }
  have types : ∀ u, (s.createField t d).2.typeDef u = (s.modifyType t f).typeDef u := fun _ => rfl
  refine ⟨(Grows.createField (i := i) t d).toExtends, fun hle hn => absurd ⟨hle, hn⟩ (not_new_type hlen),
    fun hle hf => ?_, fun hle hm => absurd ⟨hle, hm⟩ (not_new_method rfl), fun {u} => ?_,
    fun {u n} => ?_, fun {u k} => ?_, fun {u k} => ?_⟩
  · obtain ⟨-, ⟨⟩⟩ := (new_field_iff hd).1 ⟨hle, hf⟩
    exact ht
  · exact (or_iff_left fun h => absurd h.2.1.1 (Nat.not_lt.2 (hlen ▸ h.1))).symm
  · refine Iff.trans ?_ (or_iff_left (not_new_type hlen)).symm
    rw [types]
    rcases s.typeDef_modifyType_or t f u with heq | ⟨-, heq⟩ <;> rw [heq]
  · rw [types, new_field_iff hd]
    by_cases hu : u = t
    · subst hu
      rw [typeDef_modifyType ht, List.mem_append, List.mem_singleton]
      exact or_congr_right (and_iff_left rfl).symm
    · rw [typeDef_modifyType_of_ne hu]
      exact (or_iff_left fun h => hu (Option.some.inj h.2).symm).symm
  · refine Iff.trans ?_ (or_iff_left (not_new_method rfl)).symm
    rw [types]
    rcases s.typeDef_modifyType_or t f u with heq | ⟨-, heq⟩ <;> rw [heq]

/-- A new method gets into the list of its declaring type. -/
theorem createMethod (ht : t.index < s.typeDefs.length) (d : MethodDef) :
    s.Enrols i (s.createMethod t d).2 := by
  have hd : (s.createMethod t d).2.methodDefs = s.methodDefs ++ [{ d with declaring := some t }] :=
    rfl
  have hlen : (s.createMethod t d).2.typeDefs.length = s.typeDefs.length := length_modifyType t _
  let f : TypeDef → TypeDef := fun d => { d with methods := d.methods ++ [⟨s.methodDefs.length⟩] }
  have types : ∀ u, (s.createMethod t d).2.typeDef u = (s.modifyType t f).typeDef u := fun _ => rfl
  refine ⟨(Grows.createMethod (i := i) t d).toExtends, fun hle hn => absurd ⟨hle, hn⟩ (not_new_type hlen),
    fun hle hf => absurd ⟨hle, hf⟩ (not_new_field rfl), fun hle hm => ?_, fun {u} => ?_,
    fun {u n} => ?_, fun {u k} => ?_, fun {u k} => ?_⟩
  · obtain ⟨-, ⟨⟩⟩ := (new_method_iff hd).1 ⟨hle, hm⟩
    exact ht
  · exact (or_iff_left fun h => absurd h.2.1.1 (Nat.not_lt.2 (hlen ▸ h.1))).symm
  · refine Iff.trans ?_ (or_iff_left (not_new_type hlen)).symm
    rw [types]
    rcases s.typeDef_modifyType_or t f u with heq | ⟨-, heq⟩ <;> rw [heq]
  · refine Iff.trans ?_ (or_iff_left (not_new_field rfl)).symm
    rw [types]
    rcases s.typeDef_modifyType_or t f u with heq | ⟨-, heq⟩ <;> rw [heq]
  · rw [types, new_method_iff hd]
    by_cases hu : u = t
    · subst hu
      rw [typeDef_modifyType ht, List.mem_append, List.mem_singleton]
      exact or_congr_right (and_iff_left rfl).symm
    · rw [typeDef_modifyType_of_ne hu]
      exact (or_iff_left fun h => hu (Option.some.inj h.2).symm).symm

end Enrols

/-- The lists of a new module hold what they should. -/
theorem Sealed.filed_createImage (h : s.Sealed) (name : Bytes) :
    (s.createImage name).2.Filed s.nextImage := by
  have hd := typeDefs_createImage (s := s) name
  have hlen : (s.createImage name).2.typeDefs.length = s.typeDefs.length + 1 := by
    rw [hd, List.length_append]
    rfl
  -- nothing has been declared by a type of the module
  have typeOuter : ∀ {n t : TypeId}, ((s.createImage name).2.typeDef n).declaring = some t →
      t.index < s.typeDefs.length := by
    intro n t hn
    rcases typeDef_append_or hd n with heq | heq
    · exact h.types (heq ▸ hn)
    · rw [heq] at hn
      cases hn
  have global : ∀ {t}, (s.createImage name).2.Owns s.nextImage t → t = s.nextType ∧
      (s.createImage name).2.typeDef t = { image := s.nextImage, ns := [], name := globalTypeName } := by
    intro t ht
    obtain rfl := h.owns_createImage name ht
    exact ⟨rfl, typeDef_createImage name⟩
  have none : ∀ {t : TypeId}, t.index < s.typeDefs.length →
      ¬ (s.createImage name).2.Owns s.nextImage t := by
    intro t hlt ht
    rw [(global ht).1] at hlt
    exact Nat.lt_irrefl _ hlt
  refine ⟨fun hn => hlen ▸ Nat.lt_succ_of_lt (typeOuter hn),
    fun hf => hlen ▸ Nat.lt_succ_of_lt (h.fields hf),
    fun hm => hlen ▸ Nat.lt_succ_of_lt (h.methods hm), fun {t} => ?_, fun {t} ht {n} => ?_,
    fun {t} ht {f} => ?_, fun {t} ht {f} => ?_⟩
  · rw [image_createImage, List.mem_singleton]
    constructor
    · rintro rfl
      exact ⟨⟨hlen ▸ Nat.lt_succ_self _, by rw [typeDef_createImage]⟩, by rw [typeDef_createImage]⟩
    · exact fun ht => (global ht.1).1
  · rw [(global ht).2]
    exact iff_of_false List.not_mem_nil fun hn => none (typeOuter hn) ht
  · rw [(global ht).2]
    exact iff_of_false List.not_mem_nil fun hf => none (h.fields hf) ht
  · rw [(global ht).2]
    exact iff_of_false List.not_mem_nil fun hm => none (h.methods hm) ht

end Live.Store

/-! ### Acts -/

/-- Putting members of a list in order leaves its members. -/
theorem Writing.mem_reordered {α : Type} [DecidableEq α] {first current : List α}
    (h : ∀ a ∈ first, a ∈ current) {a : α} : a ∈ reordered first current ↔ a ∈ current := by
  rw [reordered, List.mem_append, List.mem_filter]
  constructor
  · rintro (ha | ha)
    · exact h a ha
    · exact ha.1
  · intro ha
    by_cases hf : a ∈ first
    · exact .inl hf
    · exact .inr ⟨ha, decide_eq_true hf⟩

namespace WriteState

variable {w w' : WriteState}

/-- A type that is remembered is the module's own. -/
theorem Settled.owns (h : w.Settled) {t : TypeId} (ht : w.RemembersType (.typeDef t)) :
    w.store.Owns w.writer.image t := by
  cases h.types ht with
  | defined ho => exact ho

/-- What is made gets into the list that it belongs to, and what is put in order has been there. -/
theorem Act.enrols (a : w.Act w') (h : w.Settled) (hf : w.store.Filed w.writer.image) :
    w.store.Enrols w.writer.image w'.store := by
  have hi := h.housed.image
  cases a with
  | assemblyRef name => exact .addRowTo hi (.assemblyRef · (.ofText name)) fun _ => rfl
  | moduleRef name => exact .addRowTo hi (.moduleRef · name) fun _ => rfl
  | @typeRef ns name scope => exact .addRowTo hi (.typeRef · ns name scope) fun _ => rfl
  | memberRef name sig parent => exact .addRowTo hi (.memberRef · name sig parent) fun _ => rfl
  | topType ns name => exact .createType hi ns name
  | nestedType name ho => exact .createNestedType [] name (h.owns ho).1
  | field d ht => exact .createField (h.owns ht).1 d
  | method d ht => exact .createMethod (h.owns ht).1 d
  | defineType _ hk =>
      exact .modifyType hk.head (by rw [hk.nestedTypes]) (by rw [hk.fields]) (by rw [hk.methods])
  | orderTypes ht hn =>
      refine .modifyType (fun _ => rfl) (Writing.mem_reordered fun n hm => ?_) .rfl .rfl
      exact (hf.nested (h.owns ht)).2 (hn n hm).2
  | orderFields ht hn =>
      refine .modifyType (fun _ => rfl) .rfl (Writing.mem_reordered fun n hm => ?_) .rfl
      exact (hf.fields (h.owns ht)).2 (hn n hm).2
  | orderMethods ht hn =>
      refine .modifyType (fun _ => rfl) .rfl .rfl (Writing.mem_reordered fun n hm => ?_)
      exact (hf.methods (h.owns ht)).2 (hn n hm).2
  | defineField _ hk => exact .modifyField hk
  | defineMethod _ hk => exact .modifyMethod hk
  | _ => exact .of_eq rfl rfl rfl rfl

end WriteState

/-- The lists of a module hold what they should after any requests to its writers. -/
theorem Writers.filed {s : Store} (h : s.Sealed) (name : Bytes) (qs : List Writers.Call) :
    ((Writers.start s name).afterAll qs).store.Filed s.nextImage :=
  Writers.invariant (fun hi hready hf a => hf.enrols (hi ▸ a.enrols hready.toSettled (hi ▸ hf))) h
    (h.filed_createImage name) qs

end CilCatalog
