import CilCatalog.Proofs.Writing.Filed
import Mathlib.Data.Set.Pairwise.Basic

/-!
# Nothing is made twice

Writers look for what they need before they make it, in lists that have everything that there is (`Store.Filed`).  So no two types of a module have one name in one place, no two of its type references refer to one type, and no two members of a type are the same by name and signature.

* `Store.Unrepeated`: the rows of a module are distinct in this sense.
* `Act.keeps_unrepeated`: the acts of writers keep it so.
* `Writers.unrepeated`: it is so after any requests to the writers of a module.
-/

namespace CilCatalog

open Live

namespace Live

/-- Two rows are references to the type of one name in one scope. -/
def Row.SameType : Row → Row → Prop
  | .typeRef _ ns name scope, .typeRef _ ns' name' scope' =>
      scope.same scope' = true ∧ ns = ns' ∧ name = name'
  | _, _ => False

namespace Store

variable {s s' : Store} {i : ImageId}

/-- Types that are not nested differ in namespace or name. -/
def TopsApart (i : ImageId) (s : Store) : Prop :=
  {t | s.Owns i t ∧ (s.typeDef t).declaring = none}.Pairwise fun t u =>
    (s.typeDef t).ns ≠ (s.typeDef u).ns ∨ (s.typeDef t).name ≠ (s.typeDef u).name

/-- Types that are nested in one differ in name. -/
def NestedApart (i : ImageId) (s : Store) : Prop :=
  ∀ o, s.Owns i o → {t | (s.typeDef t).declaring = some o}.Pairwise fun t u =>
    (s.typeDef t).name ≠ (s.typeDef u).name

/-- Fields of one type differ in name or signature. -/
def FieldsApart (i : ImageId) (s : Store) : Prop :=
  ∀ t, s.Owns i t → {f | (s.fieldDef f).declaring = some t}.Pairwise fun f g =>
    (s.fieldDef f).name ≠ (s.fieldDef g).name ∨
      (s.fieldDef f).signature.sigEq (s.fieldDef g).signature = false

/-- Methods of one type differ in name or signature. -/
def MethodsApart (i : ImageId) (s : Store) : Prop :=
  ∀ t, s.Owns i t → {f | (s.methodDef f).declaring = some t}.Pairwise fun f g =>
    (s.methodDef f).name ≠ (s.methodDef g).name ∨
      (s.methodDef f).signature.sigEq (s.methodDef g).signature = false

/-- No two rows of a module denote one thing. -/
structure Unrepeated (i : ImageId) (s : Store) : Prop where
  tops : s.TopsApart i
  nested : s.NestedApart i
  fields : s.FieldsApart i
  methods : s.MethodsApart i
  typeRefs : (s.image i).typeRefs.Pairwise fun a b => ¬ a.SameType b

/-! ### One more -/

/-- What is apart stays so when something is added that is apart from all. -/
theorem pairwise_step {α : Type} {S S' : Set α} {R R' : α → α → Prop} (x : α) (h : S.Pairwise R)
    (symm : ∀ {a b}, R' a b → R' b a) (kept : ∀ {a b}, a ∈ S → b ∈ S → R a b → R' a b)
    (fate : ∀ {a}, a ∈ S' → a ∈ S ∨ a = x ∧ ∀ b ∈ S, R' b a) : S'.Pairwise R' := by
  intro a ha b hb hne
  rcases fate ha with ha | ⟨rfl, hx⟩
  · rcases fate hb with hb | ⟨rfl, hx⟩
    · exact kept ha hb (h ha hb hne)
    · exact hx a ha
  · rcases fate hb with hb | ⟨rfl, -⟩
    · exact symm (hx b hb)
    · exact absurd rfl hne

theorem sigEq_eq_false_symm {a b : CallSig} (h : a.sigEq b = false) : b.sigEq a = false := by
  rw [Bool.eq_false_iff] at h ⊢
  exact fun hb => h (CallSig.sigEq_symm b a hb)

section Step

variable (hf : s.Filed i) (he : s.Enrols i s')

include hf he

omit hf in
/-- A type that is not nested may be added, if it has a name of its own. -/
theorem TopsApart.step (h : s.TopsApart i) (x : TypeId)
    (new : ∀ t, s.typeDefs.length ≤ t.index → s'.Owns i t → (s'.typeDef t).declaring = none →
      t = x ∧ ∀ u, s.Owns i u → (s.typeDef u).declaring = none →
        (s.typeDef u).ns ≠ (s'.typeDef t).ns ∨ (s.typeDef u).name ≠ (s'.typeDef t).name) :
    s'.TopsApart i := by
  have hx := he.toExtends
  refine pairwise_step x h (fun h => h.imp Ne.symm Ne.symm) (fun {t u} ht hu h => ?_) fun {t} ht => ?_
  · rwa [ns_extends ht.1.1 hx, ns_extends hu.1.1 hx, typeName_extends ht.1.1 hx,
      typeName_extends hu.1.1 hx]
  · rcases Nat.lt_or_ge t.index s.typeDefs.length with hlt | hge
    · exact .inl ⟨⟨hlt, (image_extends hlt hx).symm.trans ht.1.2⟩,
        (declaring_extends hlt hx).symm.trans ht.2⟩
    · obtain ⟨rfl, apart⟩ := new t hge ht.1 ht.2
      refine .inr ⟨rfl, fun u hu => ?_⟩
      rw [ns_extends hu.1.1 hx, typeName_extends hu.1.1 hx]
      exact apart u hu.1 hu.2

/-- A type that is nested in another may be added, if it has a name of its own there. -/
theorem NestedApart.step (h : s.NestedApart i) (x : TypeId)
    (new : ∀ t o, s.Owns i o → s.typeDefs.length ≤ t.index → (s'.typeDef t).declaring = some o →
      t = x ∧ ∀ u, (s.typeDef u).declaring = some o → (s.typeDef u).name ≠ (s'.typeDef t).name) :
    s'.NestedApart i := by
  have hx := he.toExtends
  intro o ho
  by_cases hlt : o.index < s.typeDefs.length
  · have ho : s.Owns i o := ⟨hlt, (image_extends hlt hx).symm.trans ho.2⟩
    refine pairwise_step x (h o ho) Ne.symm (fun {t u} ht hu h => ?_) fun {t} ht => ?_
    · rwa [typeName_extends (type_lt ht) hx, typeName_extends (type_lt hu) hx]
    · rcases Nat.lt_or_ge t.index s.typeDefs.length with hlt | hge
      · exact .inl ((declaring_extends hlt hx).symm.trans ht)
      · obtain ⟨rfl, apart⟩ := new t o ho hge ht
        refine .inr ⟨rfl, fun u hu => ?_⟩
        rw [typeName_extends (type_lt hu) hx]
        exact apart u hu
  · exact fun t ht => absurd (hf.typeOuter_enrols he ht) hlt

/-- A field may be added to a type, if no other of its fields has its name and signature. -/
theorem FieldsApart.step (h : s.FieldsApart i) (x : FieldId)
    (new : ∀ f t, s.Owns i t → s.fieldDefs.length ≤ f.index → (s'.fieldDef f).declaring = some t →
      f = x ∧ ∀ g, (s.fieldDef g).declaring = some t → (s.fieldDef g).name ≠ (s'.fieldDef f).name ∨
        (s.fieldDef g).signature.sigEq (s'.fieldDef f).signature = false) :
    s'.FieldsApart i := by
  have hx := he.toExtends
  have name : ∀ {f : FieldId} {t}, (s.fieldDef f).declaring = some t →
      (s'.fieldDef f).name = (s.fieldDef f).name :=
    fun hf => fieldName_extends (field_lt hf) hx
  have signature : ∀ {f : FieldId} {t}, (s.fieldDef f).declaring = some t →
      (s'.fieldDef f).signature = (s.fieldDef f).signature :=
    fun hf => fieldSignature_extends (field_lt hf) hx
  intro t ht
  by_cases hlt : t.index < s.typeDefs.length
  · have ht : s.Owns i t := ⟨hlt, (image_extends hlt hx).symm.trans ht.2⟩
    refine pairwise_step x (h t ht) (fun h => h.imp Ne.symm sigEq_eq_false_symm)
      (fun {f g} hf hg h => ?_) fun {f} hf => ?_
    · rwa [name hf, name hg, signature hf, signature hg]
    · rcases Nat.lt_or_ge f.index s.fieldDefs.length with hlt | hge
      · exact .inl ((fieldDeclaring_extends hlt hx).symm.trans hf)
      · obtain ⟨rfl, apart⟩ := new f t ht hge hf
        refine .inr ⟨rfl, fun g hg => ?_⟩
        rw [name hg, signature hg]
        exact apart g hg
  · exact fun f hd => absurd (hf.fieldOuter_enrols he hd) hlt

/-- A method may be added to a type, if no other of its methods has its name and signature. -/
theorem MethodsApart.step (h : s.MethodsApart i) (x : MethodId)
    (new : ∀ f t, s.Owns i t → s.methodDefs.length ≤ f.index →
      (s'.methodDef f).declaring = some t → f = x ∧ ∀ g, (s.methodDef g).declaring = some t →
        (s.methodDef g).name ≠ (s'.methodDef f).name ∨
          (s.methodDef g).signature.sigEq (s'.methodDef f).signature = false) :
    s'.MethodsApart i := by
  have hx := he.toExtends
  have name : ∀ {f : MethodId} {t}, (s.methodDef f).declaring = some t →
      (s'.methodDef f).name = (s.methodDef f).name :=
    fun hf => methodName_extends (method_lt hf) hx
  have signature : ∀ {f : MethodId} {t}, (s.methodDef f).declaring = some t →
      (s'.methodDef f).signature = (s.methodDef f).signature :=
    fun hf => methodSignature_extends (method_lt hf) hx
  intro t ht
  by_cases hlt : t.index < s.typeDefs.length
  · have ht : s.Owns i t := ⟨hlt, (image_extends hlt hx).symm.trans ht.2⟩
    refine pairwise_step x (h t ht) (fun h => h.imp Ne.symm sigEq_eq_false_symm)
      (fun {f g} hf hg h => ?_) fun {f} hf => ?_
    · rwa [name hf, name hg, signature hf, signature hg]
    · rcases Nat.lt_or_ge f.index s.methodDefs.length with hlt | hge
      · exact .inl ((methodDeclaring_extends hlt hx).symm.trans hf)
      · obtain ⟨rfl, apart⟩ := new f t ht hge hf
        refine .inr ⟨rfl, fun g hg => ?_⟩
        rw [name hg, signature hg]
        exact apart g hg
  · exact fun f hd => absurd (hf.methodOuter_enrols he hd) hlt

/-! ### Nothing new -/

omit hf in
theorem TopsApart.kept (h : s.TopsApart i)
    (none : ∀ t, s.typeDefs.length ≤ t.index → s'.Owns i t → (s'.typeDef t).declaring ≠ none) :
    s'.TopsApart i :=
  h.step he default fun t hle hown hn => absurd hn (none t hle hown)

theorem NestedApart.kept (h : s.NestedApart i)
    (none : ∀ {t o}, ¬ (s.typeDefs.length ≤ t.index ∧ (s'.typeDef t).declaring = some o)) :
    s'.NestedApart i :=
  h.step hf he default fun _ _ _ hle hd => absurd ⟨hle, hd⟩ none

theorem FieldsApart.kept (h : s.FieldsApart i) (hl : s'.fieldDefs.length = s.fieldDefs.length) :
    s'.FieldsApart i :=
  h.step hf he default fun _ _ _ hle hd => absurd ⟨hle, hd⟩ (not_new_field hl)

theorem MethodsApart.kept (h : s.MethodsApart i) (hl : s'.methodDefs.length = s.methodDefs.length) :
    s'.MethodsApart i :=
  h.step hf he default fun _ _ _ hle hd => absurd ⟨hle, hd⟩ (not_new_method hl)

/-- Where there are no more types, types are as far apart as they were. -/
theorem Unrepeated.types_kept (h : s.Unrepeated i) (hl : s'.typeDefs.length = s.typeDefs.length) :
    s'.TopsApart i ∧ s'.NestedApart i :=
  ⟨h.tops.kept he fun _ hle hown => absurd hown.1 (Nat.not_lt.2 (hl ▸ hle)),
    h.nested.kept hf he (not_new_type hl)⟩

/-- Where there are no more definitions, it is enough to look at the references. -/
theorem Unrepeated.kept (h : s.Unrepeated i) (ht : s'.typeDefs.length = s.typeDefs.length)
    (hl : s'.fieldDefs.length = s.fieldDefs.length)
    (hm : s'.methodDefs.length = s.methodDefs.length)
    (refs : (s'.image i).typeRefs.Pairwise fun a b => ¬ a.SameType b) : s'.Unrepeated i :=
  have types := h.types_kept hf he ht
  ⟨types.1, types.2, h.fields.kept hf he hl, h.methods.kept hf he hm, refs⟩

end Step

section Made

variable (h : s.Unrepeated i)

include h

/-- A row may be put into another table. -/
theorem Unrepeated.addRowTo (hf : s.Filed i) (hi : i.index < s.images.length) (make : Nat → Row)
    {f : Image → Image} (types : ∀ m, (f m).types = m.types)
    (typeRefs : ∀ m, (f m).typeRefs = m.typeRefs) :
    ((s.addRow make).2.modifyImage i f).Unrepeated i := by
  refine h.kept hf (.addRowTo hi make types) rfl rfl rfl ?_
  rw [image_modifyImage (s := (s.addRow make).2) hi, typeRefs]
  exact h.typeRefs

/-- A reference to a type may be added, if there is none to it. -/
theorem Unrepeated.typeRefs_addTypeRef (hi : i.index < s.images.length) {ns name : Bytes}
    {scope : Row} (new : ∀ r ∈ (s.image i).typeRefs, Writing.isTypeReference scope ns name r = false) :
    ((s.addTypeRef i ns name scope).2.image i).typeRefs.Pairwise fun a b => ¬ a.SameType b := by
  rw [addTypeRef, image_modifyImage (s := (s.addRow _).2) hi]
  refine List.pairwise_append.2 ⟨h.typeRefs, List.pairwise_singleton _ _, fun r hr r' hr' => ?_⟩
  obtain rfl := List.mem_singleton.1 hr'
  intro hsame
  cases r with
  | typeRef n ns' name' scope' =>
      obtain ⟨hscope, rfl, rfl⟩ := hsame
      have := new _ hr
      simp [Writing.isTypeReference, hscope] at this
  | _ => exact hsame

variable (hf : s.Filed i)

include hf

/-- A type may be made, if none is found. -/
theorem Unrepeated.createType (hi : i.index < s.images.length) {ns name : Bytes}
    (new : s.findType? i ns name = none) : (s.createType i ns name).2.Unrepeated i := by
  have he : s.Enrols i (s.createType i ns name).2 := .createType hi ns name
  have hd : (s.createType i ns name).2.typeDefs = s.typeDefs ++ [{ image := i, ns, name }] := rfl
  refine ⟨h.tops.step he ⟨s.typeDefs.length⟩ fun t hle hown hn => ?_,
    h.nested.kept hf he ?_, h.fields.kept hf he rfl, h.methods.kept hf he rfl, ?_⟩
  · have hlt := hown.1
    rw [hd, List.length_append] at hlt
    obtain ⟨k⟩ := t
    obtain rfl : k = s.typeDefs.length := Nat.le_antisymm (Nat.le_of_lt_succ hlt) hle
    refine ⟨rfl, fun u hu hnone => ?_⟩
    rw [typeDef_new hd]
    have := List.find?_eq_none.1 new u (hf.tops.2 ⟨hu, hnone⟩)
    simpa [← not_and_or] using this
  · intro t o hn
    cases ((new_type_iff hd).1 hn).2
  · rw [show (s.createType i ns name).2.image i = _ from image_modifyImage hi]
    exact h.typeRefs

/-- A type may be made in another, if that has none of its name. -/
theorem Unrepeated.createNestedType {o : TypeId} (ho : s.Owns i o) {name : Bytes}
    (new : ∀ t ∈ (s.typeDef o).nestedTypes, (s.typeDef t).name ≠ name) :
    (s.createNestedType i [] name o).2.Unrepeated i := by
  have he : s.Enrols i (s.createNestedType i [] name o).2 := .createNestedType [] name ho.1
  have hname : ((s.createNestedType i [] name o).2.typeDef ⟨s.typeDefs.length⟩).name = name := by
    have : ((s.createNestedType i [] name o).2.typeDef ⟨s.typeDefs.length⟩).name = _ :=
      congrArg (·.2.2.1) (head_createNestedType [] name _)
    rw [this, TypeDef.head, typeDef_new rfl]
  refine ⟨h.tops.kept he fun t hle hown hnone => ?_,
    h.nested.step hf he ⟨s.typeDefs.length⟩ fun t u _ hle hn => ?_, h.fields.kept hf he rfl,
    h.methods.kept hf he rfl, h.typeRefs⟩
  · cases (nested_of_new [] name hle hown.1).symm.trans hnone
  · obtain ⟨rfl, rfl⟩ := (new_nested_iff [] name).1 ⟨hle, hn⟩
    exact ⟨rfl, fun v hv => hname.symm ▸ new v ((hf.nested ho).2 hv)⟩

/-- A field may be made, if none is found. -/
theorem Unrepeated.createField {t : TypeId} (ht : s.Owns i t) {d : FieldDef}
    (new : s.findField? t d.name d.signature = none) : (s.createField t d).2.Unrepeated i := by
  have he : s.Enrols i (s.createField t d).2 := .createField ht.1 d
  have hd : (s.createField t d).2.fieldDefs = s.fieldDefs ++ [{ d with declaring := some t }] := rfl
  have types := h.types_kept hf he (length_modifyType t _)
  refine ⟨types.1, types.2, h.fields.step hf he ⟨s.fieldDefs.length⟩ fun f u _ hle hdecl => ?_,
    h.methods.kept hf he rfl, h.typeRefs⟩
  obtain ⟨rfl, ⟨⟩⟩ := (new_field_iff hd).1 ⟨hle, hdecl⟩
  refine ⟨rfl, fun g hg => ?_⟩
  rw [fieldDef_new hd]
  have := List.find?_eq_none.1 new g ((hf.fields ht).2 hg)
  simpa [imp_iff_not_or] using this

/-- A method may be made, if none is found. -/
theorem Unrepeated.createMethod {t : TypeId} (ht : s.Owns i t) {d : MethodDef}
    (new : s.findMethod? t d.name d.signature = none) : (s.createMethod t d).2.Unrepeated i := by
  have he : s.Enrols i (s.createMethod t d).2 := .createMethod ht.1 d
  have hd : (s.createMethod t d).2.methodDefs = s.methodDefs ++ [{ d with declaring := some t }] :=
    rfl
  have types := h.types_kept hf he (length_modifyType t _)
  refine ⟨types.1, types.2, h.fields.kept hf he rfl,
    h.methods.step hf he ⟨s.methodDefs.length⟩ fun f u _ hle hdecl => ?_, h.typeRefs⟩
  obtain ⟨rfl, ⟨⟩⟩ := (new_method_iff hd).1 ⟨hle, hdecl⟩
  refine ⟨rfl, fun g hg => ?_⟩
  rw [methodDef_new hd]
  have := List.find?_eq_none.1 new g ((hf.methods ht).2 hg)
  simpa [imp_iff_not_or] using this

end Made

/-- A new module has but its global type. -/
theorem Sealed.unrepeated_createImage (h : s.Sealed) (name : Bytes) :
    (s.createImage name).2.Unrepeated s.nextImage := by
  have hf := h.filed_createImage name
  have global : ∀ {t}, (s.createImage name).2.Owns s.nextImage t →
      t = s.nextType ∧ (s.createImage name).2.typeDef t =
        { image := s.nextImage, ns := [], name := globalTypeName } := by
    intro t ht
    obtain rfl := h.owns_createImage name ht
    exact ⟨rfl, typeDef_createImage name⟩
  refine ⟨fun t ht u hu hne => ?_, fun o ho t ht => ?_, fun t ht f hd => ?_, fun t ht f hd => ?_, ?_⟩
  · exact absurd ((global ht.1).1.trans (global hu.1).1.symm) hne
  · have := (hf.nested ho).2 ht
    rw [(global ho).2] at this
    cases this
  · have := (hf.fields ht).2 hd
    rw [(global ht).2] at this
    cases this
  · have := (hf.methods ht).2 hd
    rw [(global ht).2] at this
    cases this
  · rw [image_createImage]
    exact .nil

end Store

end Live

/-! ### Acts -/

namespace WriteState

variable {w w' : WriteState}

/-- What is not found, is made without repeating anything that there is. -/
theorem Act.keeps_unrepeated (a : w.Act w') (h : w.Settled) (hf : w.store.Filed w.writer.image)
    (hu : w.store.Unrepeated w.writer.image) : w'.store.Unrepeated w.writer.image := by
  have hi := h.housed.image
  have he := a.enrols h hf
  cases a with
  | assemblyRef name =>
      exact hu.addRowTo hf hi (.assemblyRef · (.ofText name)) (fun _ => rfl) fun _ => rfl
  | moduleRef name => exact hu.addRowTo hf hi (.moduleRef · name) (fun _ => rfl) fun _ => rfl
  | memberRef name sig parent =>
      exact hu.addRowTo hf hi (.memberRef · name sig parent) (fun _ => rfl) fun _ => rfl
  | typeRef ns name hs new => exact hu.kept hf he rfl rfl rfl (hu.typeRefs_addTypeRef hi new)
  | topType ns name new => exact hu.createType hf hi new
  | nestedType name ho new => exact hu.createNestedType hf (h.owns ho) new
  | field d ht new => exact hu.createField hf (h.owns ht) new
  | method d ht new => exact hu.createMethod hf (h.owns ht) new
  | defineType | orderTypes | orderFields | orderMethods =>
      exact hu.kept hf he (Store.length_modifyType _ _) rfl rfl hu.typeRefs
  | defineField => exact hu.kept hf he rfl (Store.length_modifyField _ _) rfl hu.typeRefs
  | defineMethod => exact hu.kept hf he rfl rfl (Store.length_modifyMethod _ _) hu.typeRefs
  | _ => exact hu.kept hf he rfl rfl rfl hu.typeRefs

end WriteState

/-- No two rows of a module denote one thing after any requests to its writers. -/
theorem Writers.unrepeated {s : Store} (h : s.Sealed) (name : Bytes) (qs : List Writers.Call) :
    ((Writers.start s name).afterAll qs).store.Unrepeated s.nextImage := by
  refine (Writers.invariant (P := fun s' => s'.Filed s.nextImage ∧ s'.Unrepeated s.nextImage)
    (fun hi hready hw a => ?_) h ⟨h.filed_createImage name, h.unrepeated_createImage name⟩ qs).2
  have he := hi ▸ a.enrols hready.toSettled (hi ▸ hw.1)
  exact ⟨hw.1.enrols he, hi ▸ a.keeps_unrepeated hready.toSettled (hi ▸ hw.1) (hi ▸ hw.2)⟩

/-- A type and a field of it. -/
def plot : Catalog where
  options := .default
  types := ⟨[(.index 0, .reference ⟨"Plot", [], none, none⟩)], by decide, rfl⟩
  fields := ⟨[(.index 0, .reference ⟨"x", .token (.index 0),
    .ofConvention .field [.int32 0, .ofElement .i8]⟩)], by decide, rfl⟩
  methods := .empty

/-- A field that two writers are asked for. -/
def neighbours : Writers :=
  (Writers.start .empty "M").afterAll
    [⟨0, plot, .fields [.index 0] .reference⟩, ⟨1, plot, .fields [.index 0] .reference⟩]

theorem Writers.unrepeated_neighbours : Store.empty.Sealed ∧
    neighbours.store.Unrepeated Store.empty.nextImage ∧
    neighbours.store.fieldDefs.map FieldDef.name = ["x"] :=
  ⟨Store.sealed_empty, Writers.unrepeated Store.sealed_empty "M" _, by decide +kernel⟩

end CilCatalog
