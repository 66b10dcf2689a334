import CilCatalog.Proofs.Live.Nameable

/-!
# Modules that change

What is made in a module, or changed without its identity, leaves the module as it should be.

* `Store.Grows`: what has a name keeps it while a module grows.
* `Store.Housed`, `Store.Tabled`: one lemma for each change.
-/

namespace CilCatalog.Live.Store

variable {s s' : Store} {i : ImageId} {t : TypeId} {r x : Row}

/-! ### Growth -/

/-- Definitions stay what they are, and the tables of the module grow. -/
structure Grows (i : ImageId) (s s' : Store) : Prop extends s.Extends s' where
  assemblyRefs : (s.image i).assemblyRefs ⊆ (s'.image i).assemblyRefs
  typeRefs : (s.image i).typeRefs ⊆ (s'.image i).typeRefs

theorem Owns.extends (h : s.Owns i t) (he : s.Extends s') : s'.Owns i t :=
  ⟨Nat.lt_of_lt_of_le h.1 he.typesLe, (image_extends h.1 he).trans h.2⟩

/-- A type with a type around it is there. -/
theorem type_lt {n : TypeId} (h : (s.typeDef n).declaring = some t) :
    n.index < s.typeDefs.length := by
  by_contra hlt
  rw [typeDef_of_le (Nat.not_lt.1 hlt)] at h
  cases h

/-- A field with a declaring type is there. -/
theorem field_lt {f : FieldId} (h : (s.fieldDef f).declaring = some t) :
    f.index < s.fieldDefs.length := by
  by_contra hlt
  rw [fieldDef, List.getElem?_eq_none (Nat.not_lt.1 hlt)] at h
  cases h

theorem method_lt {f : MethodId} (h : (s.methodDef f).declaring = some t) :
    f.index < s.methodDefs.length := by
  by_contra hlt
  rw [methodDef, List.getElem?_eq_none (Nat.not_lt.1 hlt)] at h
  cases h

namespace Extends

variable (he : s.Extends s')

include he

theorem field_declaring {f : FieldId} (h : (s.fieldDef f).declaring = some t) :
    (s'.fieldDef f).declaring = some t :=
  (fieldDeclaring_extends (field_lt h) he).trans h

theorem method_declaring {f : MethodId} (h : (s.methodDef f).declaring = some t) :
    (s'.methodDef f).declaring = some t :=
  (methodDeclaring_extends (method_lt h) he).trans h

end Extends

theorem Nameable.grow (hg : Grows i s s') (h : s.Nameable i r) : s'.Nameable i r := by
  cases h with
  | defined h => exact .defined (h.extends hg.toExtends)
  | referred h ha => exact .referred (hg.typeRefs h) ha

theorem readable_grow (hg : Grows i s s') (h : r.Readable s i) : r.Readable s' i :=
  r.madeOf_mono (Nameable.grow hg) id h

theorem callSig_grow {c : CallSig} (hg : Grows i s s') (h : c.Readable s i) : c.Readable s' i :=
  c.madeOf_mono (Nameable.grow hg) id h

theorem legible_grow {c : CallSig} (hg : Grows i s s') (h : c.Legible s i) : c.Legible s' i := by
  obtain ⟨c', hc, heq⟩ := h
  exact ⟨c', callSig_grow hg hc, heq⟩

theorem NameableField.grow (hg : Grows i s s') (h : s.NameableField i r) : s'.NameableField i r := by
  cases h with
  | @defined f t hd ht hs =>
      refine .defined (hg.field_declaring hd) (ht.extends hg.toExtends) ?_
      rw [fieldSignature_extends (field_lt hd) hg.toExtends]
      exact legible_grow hg hs
  | referred hk hp hs => exact .referred hk (readable_grow hg hp) (callSig_grow hg hs)

theorem NameableMethod.grow (hg : Grows i s s') (h : s.NameableMethod i r) :
    s'.NameableMethod i r := by
  cases h with
  | @defined f t hd ht hs =>
      refine .defined (hg.method_declaring hd) (ht.extends hg.toExtends) ?_
      rw [methodSignature_extends (method_lt hd) hg.toExtends]
      exact legible_grow hg hs
  | referred hk hp hs => exact .referred hk (readable_grow hg hp) (callSig_grow hg hs)

/-! ### What grows -/

namespace Extends

/-- The same definitions. -/
theorem of_eq (ht : s'.typeDefs = s.typeDefs) (hf : s'.fieldDefs = s.fieldDefs)
    (hm : s'.methodDefs = s.methodDefs) : s.Extends s' where
  typesLe := Nat.le_of_eq (by rw [ht])
  fieldsLe := Nat.le_of_eq (by rw [hf])
  methodsLe := Nat.le_of_eq (by rw [hm])
  types t _ := by rw [typeDef, ht, typeDef]
  fields f _ := by rw [fieldDef, hf, fieldDef]
  methods f _ := by rw [methodDef, hm, methodDef]

/-- More definitions. -/
theorem of_append (ts : List TypeDef) (fs : List FieldDef) (ms : List MethodDef)
    (ht : s'.typeDefs = s.typeDefs ++ ts) (hf : s'.fieldDefs = s.fieldDefs ++ fs)
    (hm : s'.methodDefs = s.methodDefs ++ ms) : s.Extends s' where
  typesLe := by rw [ht, List.length_append]; exact Nat.le_add_right _ _
  fieldsLe := by rw [hf, List.length_append]; exact Nat.le_add_right _ _
  methodsLe := by rw [hm, List.length_append]; exact Nat.le_add_right _ _
  types t h := by rw [typeDef_append ht h]
  fields f h := by rw [fieldDef_append hf h]
  methods f h := by rw [methodDef_append hm h]

theorem modifyType {f : TypeDef → TypeDef} (hf : ∀ d, (f d).head = d.head) :
    s.Extends (s.modifyType t f) :=
  ⟨Nat.le_of_eq (length_modifyType t f).symm, Nat.le_refl _, Nat.le_refl _,
    fun u _ => head_modifyType hf u, fun _ _ => rfl, fun _ _ => rfl⟩

theorem modifyField {k : FieldId} {f : FieldDef → FieldDef} (hf : ∀ d, (f d).head = d.head) :
    s.Extends (s.modifyField k f) where
  typesLe := Nat.le_refl _
  fieldsLe := Nat.le_of_eq (length_modifyField k f).symm
  methodsLe := Nat.le_refl _
  types _ _ := rfl
  fields g hg := by
    by_cases hk : g = k
    · subst hk
      rw [fieldDef_modifyField hg, hf]
    · rw [fieldDef_modifyField_of_ne hk]
  methods _ _ := rfl

theorem modifyMethod {k : MethodId} {f : MethodDef → MethodDef} (hf : ∀ d, (f d).head = d.head) :
    s.Extends (s.modifyMethod k f) where
  typesLe := Nat.le_refl _
  fieldsLe := Nat.le_refl _
  methodsLe := Nat.le_of_eq (length_modifyMethod k f).symm
  types _ _ := rfl
  fields _ _ := rfl
  methods g hg := by
    by_cases hk : g = k
    · subst hk
      rw [methodDef_modifyMethod hg, hf]
    · rw [methodDef_modifyMethod_of_ne hk]

end Extends

namespace Grows

theorem refl (i : ImageId) (s : Store) : Grows i s s :=
  ⟨.refl s, List.Subset.refl _, List.Subset.refl _⟩

theorem trans {s'' : Store} (h : Grows i s s') (h' : Grows i s' s'') : Grows i s s'' :=
  ⟨h.toExtends.trans h'.toExtends, List.Subset.trans h.assemblyRefs h'.assemblyRefs,
    List.Subset.trans h.typeRefs h'.typeRefs⟩

theorem modifyImage (hi : i.index < s.images.length) {f : Image → Image}
    (ha : ∀ m, m.assemblyRefs ⊆ (f m).assemblyRefs) (ht : ∀ m, m.typeRefs ⊆ (f m).typeRefs) :
    Grows i s (s.modifyImage i f) := by
  refine ⟨.of_eq rfl rfl rfl, ?_, ?_⟩
  · rw [image_modifyImage hi]
    exact ha _
  · rw [image_modifyImage hi]
    exact ht _

theorem modifyType {f : TypeDef → TypeDef} (hf : ∀ d, (f d).head = d.head) :
    Grows i s (s.modifyType t f) :=
  ⟨.modifyType hf, List.Subset.refl _, List.Subset.refl _⟩

theorem modifyField {k : FieldId} {f : FieldDef → FieldDef} (hf : ∀ d, (f d).head = d.head) :
    Grows i s (s.modifyField k f) :=
  ⟨.modifyField hf, List.Subset.refl _, List.Subset.refl _⟩

theorem modifyMethod {k : MethodId} {f : MethodDef → MethodDef} (hf : ∀ d, (f d).head = d.head) :
    Grows i s (s.modifyMethod k f) :=
  ⟨.modifyMethod hf, List.Subset.refl _, List.Subset.refl _⟩

theorem addType (d : TypeDef) : Grows i s { s with typeDefs := s.typeDefs ++ [d] } :=
  ⟨.of_append [d] [] [] rfl (List.append_nil _).symm (List.append_nil _).symm,
    List.Subset.refl _, List.Subset.refl _⟩

theorem createNestedType (ns name : Bytes) (outer : TypeId) :
    Grows i s (s.createNestedType i ns name outer).2 :=
  (addType { image := i, ns, name, declaring := some outer }).trans (modifyType fun _ => rfl)

theorem createType (hi : i.index < s.images.length) (ns name : Bytes) :
    Grows i s (s.createType i ns name).2 :=
  (addType { image := i, ns, name }).trans (modifyImage (s := (s.addTypeDef i ns name).2)
    (f := fun m => { m with types := m.types ++ [⟨s.typeDefs.length⟩] }) hi
    (fun m => List.Subset.refl m.assemblyRefs) fun m => List.Subset.refl m.typeRefs)

theorem addFieldDef (d : FieldDef) : Grows i s (s.addFieldDef d).2 :=
  ⟨.of_append [] [d] [] (List.append_nil _).symm rfl (List.append_nil _).symm,
    List.Subset.refl _, List.Subset.refl _⟩

theorem addMethodDef (d : MethodDef) : Grows i s (s.addMethodDef d).2 :=
  ⟨.of_append [] [] [d] (List.append_nil _).symm (List.append_nil _).symm rfl,
    List.Subset.refl _, List.Subset.refl _⟩

theorem createField (t : TypeId) (d : FieldDef) : Grows i s (s.createField t d).2 :=
  (addFieldDef { d with declaring := some t }).trans
    (modifyType (f := fun d => { d with fields := d.fields ++ [⟨s.fieldDefs.length⟩] }) fun _ => rfl)

theorem createMethod (t : TypeId) (d : MethodDef) : Grows i s (s.createMethod t d).2 :=
  (addMethodDef { d with declaring := some t }).trans
    (modifyType (f := fun d => { d with methods := d.methods ++ [⟨s.methodDefs.length⟩] })
      fun _ => rfl)

theorem addRow (make : Nat → Row) : Grows i s (s.addRow make).2 :=
  ⟨.of_eq rfl rfl rfl, List.Subset.refl _, List.Subset.refl _⟩

/-- A row may be put into a table. -/
theorem addRowTo (hi : i.index < s.images.length) (make : Nat → Row) {f : Image → Image}
    (ha : ∀ m, m.assemblyRefs ⊆ (f m).assemblyRefs) (ht : ∀ m, m.typeRefs ⊆ (f m).typeRefs) :
    Grows i s ((s.addRow make).2.modifyImage i f) :=
  (addRow make).trans (modifyImage (s := (s.addRow make).2) hi ha ht)

theorem createAssemblyRef (hi : i.index < s.images.length) (n : AssemblyName) :
    Grows i s (s.createAssemblyRef i n).2 :=
  addRowTo hi (.assemblyRef · n)
    (f := fun m => { m with assemblyRefs := m.assemblyRefs ++ [.assemblyRef s.nextRow n] })
    (fun m => List.subset_append_left m.assemblyRefs _) fun m => List.Subset.refl m.typeRefs

theorem createModuleRef (hi : i.index < s.images.length) (name : Bytes) :
    Grows i s (s.createModuleRef i name).2 :=
  addRowTo hi (.moduleRef · name)
    (f := fun m => { m with moduleRefs := m.moduleRefs ++ [.moduleRef s.nextRow name] })
    (fun m => List.Subset.refl m.assemblyRefs) fun m => List.Subset.refl m.typeRefs

theorem addTypeRef (hi : i.index < s.images.length) (ns name : Bytes) (scope : Row) :
    Grows i s (s.addTypeRef i ns name scope).2 :=
  addRowTo hi (.typeRef · ns name scope)
    (f := fun m => { m with typeRefs := m.typeRefs ++ [.typeRef s.nextRow ns name scope] })
    (fun m => List.Subset.refl m.assemblyRefs) fun m => List.subset_append_left m.typeRefs _

theorem createMemberRef (hi : i.index < s.images.length) (name : Bytes) (sig : CallSig)
    (parent : Row) : Grows i s (s.createMemberRef i name sig parent).2 :=
  addRowTo hi (.memberRef · name sig parent)
    (f := fun m => { m with memberRefs := m.memberRefs ++ [.memberRef s.nextRow name sig parent] })
    (fun m => List.Subset.refl m.assemblyRefs) fun m => List.Subset.refl m.typeRefs

end Grows

/-! ### Members -/

theorem fieldRows_subset {f : FieldId} (hf : f.index < s.fieldDefs.length) :
    (s.fieldDef f).signature.rows ⊆ s.memberRows := by
  intro x hx
  refine List.mem_append_left _ (List.mem_flatMap.2 ⟨s.fieldDef f, ?_, hx⟩)
  rw [fieldDef, List.getElem?_eq_getElem hf]
  exact List.getElem_mem hf

theorem methodRows_subset {f : MethodId} (hf : f.index < s.methodDefs.length) :
    (s.methodDef f).signature.rows ⊆ s.memberRows := by
  intro x hx
  refine List.mem_append_right _ (List.mem_flatMap.2 ⟨s.methodDef f, ?_, hx⟩)
  rw [methodDef, List.getElem?_eq_getElem hf]
  exact List.getElem_mem hf

/-- A field that is found is one of the type's, and its signature is equal to the one given. -/
theorem of_findField? {name : Bytes} {sig : CallSig} {f : FieldId}
    (h : s.findField? t name sig = some f) :
    f ∈ (s.typeDef t).fields ∧ (s.fieldDef f).signature.sigEq sig = true := by
  rw [findField?] at h
  have heq := List.find?_some h
  exact ⟨List.mem_of_find?_eq_some h, (Bool.and_eq_true_iff.1 heq).2⟩

theorem of_findMethod? {name : Bytes} {sig : CallSig} {f : MethodId}
    (h : s.findMethod? t name sig = some f) :
    f ∈ (s.typeDef t).methods ∧ (s.methodDef f).signature.sigEq sig = true := by
  rw [findMethod?] at h
  have heq := List.find?_some h
  exact ⟨List.mem_of_find?_eq_some h, (Bool.and_eq_true_iff.1 heq).2⟩

/-- A field that is made in a type of the module has a name. -/
theorem NameableField.createField (d : FieldDef) (ht : s.Owns i t) (hd : d.signature.Readable s i) :
    (s.createField t d).2.NameableField i (.fieldDef (s.createField t d).1) := by
  have hnew : (s.createField t d).2.fieldDef (s.createField t d).1 = { d with declaring := some t } :=
    fieldDef_new (s := s) rfl
  have hg : Grows i s (s.createField t d).2 := .createField t d
  refine .defined (by rw [hnew]) (ht.extends hg.toExtends) ?_
  rw [hnew]
  exact ⟨_, callSig_grow hg hd, fun _ => rfl⟩

theorem NameableMethod.createMethod (d : MethodDef) (ht : s.Owns i t)
    (hd : d.signature.Readable s i) :
    (s.createMethod t d).2.NameableMethod i (.methodDef (s.createMethod t d).1) := by
  have hnew : (s.createMethod t d).2.methodDef (s.createMethod t d).1 =
      { d with declaring := some t } := methodDef_new (s := s) rfl
  have hg : Grows i s (s.createMethod t d).2 := .createMethod t d
  refine .defined (by rw [hnew]) (ht.extends hg.toExtends) ?_
  rw [hnew]
  exact ⟨_, callSig_grow hg hd, fun _ => rfl⟩

/-! ### Changes of types -/

theorem owns_modifyType {f : TypeDef → TypeDef} (hf : ∀ d, (f d).head = d.head) (u : TypeId) :
    (s.modifyType t f).Owns i u ↔ s.Owns i u := by
  have himage : ((s.modifyType t f).typeDef u).image = (s.typeDef u).image :=
    congrArg (·.1) (head_modifyType hf u)
  rw [Owns, Owns, length_modifyType, himage]

theorem owns_new {d : TypeDef} (hd : d.image = i) :
    Owns { s with typeDefs := s.typeDefs ++ [d] } i ⟨s.typeDefs.length⟩ := by
  refine ⟨?_, (congrArg TypeDef.image (typeDef_new rfl)).trans hd⟩
  exact List.length_append ▸ Nat.lt_succ_self _

namespace Housed

/-- What has the same types, is housed the same. -/
theorem congr (h : s.Housed i) (hl : s'.images.length = s.images.length)
    (hi : (s'.image i).types = (s.image i).types) (ht : s'.typeDefs = s.typeDefs)
    (he : s.Extends s') : s'.Housed i := by
  have same : ∀ t, s'.typeDef t = s.typeDef t := fun t => by rw [typeDef, ht, typeDef]
  have owns : ∀ {t}, s'.Owns i t → s.Owns i t := fun {t} h => by rwa [Owns, same, ht] at h
  refine ⟨hl ▸ h.image, hi ▸ h.global, fun t hm => (h.tops t (hi ▸ hm)).extends he,
    fun ho n hn => ?_, fun ho f hf => ?_, fun ho f hf => ?_⟩
  · rw [same] at hn
    exact (h.nested (owns ho) n hn).extends he
  · rw [same] at hf
    exact he.field_declaring (h.fields (owns ho) f hf)
  · rw [same] at hf
    exact he.method_declaring (h.methods (owns ho) f hf)

theorem modifyImage (h : s.Housed i) {f : Image → Image} (hf : ∀ m, (f m).types = m.types) :
    (s.modifyImage i f).Housed i :=
  h.congr (length_modifyImage i f) (by rw [image_modifyImage h.image, hf]) rfl (.of_eq rfl rfl rfl)

/-- A type may get other children, if they are the module's and its own. -/
theorem modifyType (h : s.Housed i) {f : TypeDef → TypeDef} (hf : ∀ d, (f d).head = d.head)
    (nested : ∀ n ∈ (f (s.typeDef t)).nestedTypes, n ∈ (s.typeDef t).nestedTypes ∨ s.Owns i n)
    (fields : ∀ k ∈ (f (s.typeDef t)).fields,
      k ∈ (s.typeDef t).fields ∨ (s.fieldDef k).declaring = some t)
    (methods : ∀ k ∈ (f (s.typeDef t)).methods,
      k ∈ (s.typeDef t).methods ∨ (s.methodDef k).declaring = some t) :
    (s.modifyType t f).Housed i where
  image := h.image
  global := h.global
  tops u hu := (owns_modifyType hf u).2 (h.tops u hu)
  nested {u} hu n hm := by
    rw [owns_modifyType hf] at hu ⊢
    by_cases hut : u = t
    · subst hut
      rw [typeDef_modifyType hu.1] at hm
      exact (nested n hm).elim (h.nested hu n) id
    · rw [typeDef_modifyType_of_ne hut] at hm
      exact h.nested hu n hm
  fields {u} hu k hm := by
    rw [owns_modifyType hf] at hu
    by_cases hut : u = t
    · subst hut
      rw [typeDef_modifyType hu.1] at hm
      exact (fields k hm).elim (h.fields hu k) id
    · rw [typeDef_modifyType_of_ne hut] at hm
      exact h.fields hu k hm
  methods {u} hu k hm := by
    rw [owns_modifyType hf] at hu
    by_cases hut : u = t
    · subst hut
      rw [typeDef_modifyType hu.1] at hm
      exact (methods k hm).elim (h.methods hu k) id
    · rw [typeDef_modifyType_of_ne hut] at hm
      exact h.methods hu k hm

/-- A new type of the module has no children. -/
theorem addType (h : s.Housed i) {d : TypeDef} (hn : d.nestedTypes = []) (hf : d.fields = [])
    (hm : d.methods = []) : Housed { s with typeDefs := s.typeDefs ++ [d] } i := by
  have he : s.Extends { s with typeDefs := s.typeDefs ++ [d] } := (Grows.addType (i := i) d).toExtends
  -- a type has been there, or is the new one
  have cases : ∀ {u}, Owns { s with typeDefs := s.typeDefs ++ [d] } i u →
      s.Owns i u ∧ typeDef { s with typeDefs := s.typeDefs ++ [d] } u = s.typeDef u ∨
        typeDef { s with typeDefs := s.typeDefs ++ [d] } u = d := by
    intro u hu
    rcases Nat.lt_or_ge u.index s.typeDefs.length with hlt | hge
    · have heq : typeDef { s with typeDefs := s.typeDefs ++ [d] } u = s.typeDef u :=
        typeDef_append rfl hlt
      exact .inl ⟨⟨hlt, heq ▸ hu.2⟩, heq⟩
    · obtain ⟨k⟩ := u
      obtain rfl : k = s.typeDefs.length :=
        Nat.le_antisymm (Nat.le_of_lt_succ (by simpa using hu.1)) hge
      exact .inr (typeDef_new rfl)
  refine ⟨h.image, h.global, fun u hu => (h.tops u hu).extends he, fun hu n hmem => ?_,
    fun hu f hmem => ?_, fun hu f hmem => ?_⟩
  · rcases cases hu with ⟨ho, heq⟩ | heq
    · exact (h.nested ho n (heq ▸ hmem)).extends he
    · rw [heq, hn] at hmem
      cases hmem
  · rcases cases hu with ⟨ho, heq⟩ | heq
    · exact h.fields ho f (heq ▸ hmem)
    · rw [heq, hf] at hmem
      cases hmem
  · rcases cases hu with ⟨ho, heq⟩ | heq
    · exact h.methods ho f (heq ▸ hmem)
    · rw [heq, hm] at hmem
      cases hmem

/-- One more type of the module may be in its list. -/
theorem list (h : s.Housed i) (ht : s.Owns i t) :
    (s.modifyImage i fun m => { m with types := m.types ++ [t] }).Housed i := by
  have heq := image_modifyImage (f := fun m => { m with types := m.types ++ [t] }) h.image
  refine ⟨?_, ?_, fun u hu => ?_, h.nested, h.fields, h.methods⟩
  · rw [length_modifyImage]
    exact h.image
  · rw [heq]
    exact List.append_ne_nil_of_left_ne_nil h.global _
  · rw [heq] at hu
    rcases List.mem_append.1 hu with hu | hu
    · exact h.tops u hu
    · exact List.mem_singleton.1 hu ▸ ht

theorem createType (h : s.Housed i) (ns name : Bytes) : (s.createType i ns name).2.Housed i :=
  (h.addType (d := { image := i, ns, name }) rfl rfl rfl).list (owns_new rfl)

theorem createNestedType (h : s.Housed i) (ns name : Bytes) (outer : TypeId) :
    (s.createNestedType i ns name outer).2.Housed i :=
  (h.addType (d := { image := i, ns, name, declaring := some outer }) rfl rfl rfl).modifyType
    (fun _ => rfl) (fun n hn => (List.mem_append.1 hn).imp_right fun hn => by
      rw [List.mem_singleton.1 hn]
      exact owns_new rfl) (fun _ hf => .inl hf) fun _ hm => .inl hm

theorem createField (h : s.Housed i) (t : TypeId) (d : FieldDef) :
    (s.createField t d).2.Housed i := by
  have hnew : (s.addFieldDef { d with declaring := some t }).2.Housed i :=
    h.congr rfl rfl rfl (Grows.addFieldDef (i := i) _).toExtends
  refine hnew.modifyType (fun _ => rfl) (fun _ hn => .inl hn) (fun k hk => ?_) fun _ hm => .inl hm
  refine (List.mem_append.1 hk).imp_right fun hk => ?_
  rw [List.mem_singleton.1 hk, fieldDef_new (s := s) rfl]

theorem createMethod (h : s.Housed i) (t : TypeId) (d : MethodDef) :
    (s.createMethod t d).2.Housed i := by
  have hnew : (s.addMethodDef { d with declaring := some t }).2.Housed i :=
    h.congr rfl rfl rfl (Grows.addMethodDef (i := i) _).toExtends
  refine hnew.modifyType (fun _ => rfl) (fun _ hn => .inl hn) (fun _ hf => .inl hf) fun k hk => ?_
  refine (List.mem_append.1 hk).imp_right fun hk => ?_
  rw [List.mem_singleton.1 hk, methodDef_new (s := s) rfl]

/-- A row that is a value changes no types. -/
theorem addRow (h : s.Housed i) (make : Nat → Row) : (s.addRow make).2.Housed i :=
  h.congr rfl rfl rfl (.of_eq rfl rfl rfl)

end Housed

/-! ### Changes of tables and signatures -/

/-- A row keeps its place while there are only references with the next number added. -/
theorem Placed.grow (h : s.Placed i x) (hn : s.nextRow ≤ s'.nextRow)
    (hr : ∀ y ∈ s'.references i, y ∈ s.references i ∨ y.number? = some s.nextRow) :
    s'.Placed i x := by
  refine ⟨fun hx => Nat.lt_of_lt_of_le (h.number hx) hn, fun hx y hy hs => ?_⟩
  rcases hr y hy with hy | hy
  · exact h.apart hx y hy hs
  · exact absurd (h.number ((Row.number?_of_same hs).trans hy)) (Nat.lt_irrefl _)

/-- What is not changed is listed the same. -/
theorem flatMap_modify {α β : Type} {f : α → α} {g : α → List β} (h : ∀ a, g (f a) = g a)
    (as : List α) (n : Nat) : (as.modify n f).flatMap g = as.flatMap g := by
  induction as generalizing n with
  | nil => rw [List.modify_nil]
  | cons a as ih =>
      cases n with
      | zero => rw [List.modify_zero_cons, List.flatMap_cons, h, List.flatMap_cons]
      | succ n => rw [List.modify_succ_cons, List.flatMap_cons, ih, List.flatMap_cons]

/-- The rows in signatures are those there have been, and those in the signature of a new member. -/
theorem mem_memberRows_addFieldDef {d : FieldDef} (hx : x ∈ (s.addFieldDef d).2.memberRows) :
    x ∈ s.memberRows ∨ x ∈ d.signature.rows := by
  have rows : (s.addFieldDef d).2.fieldDefs = s.fieldDefs ++ [d] := rfl
  rw [memberRows, rows, List.flatMap_append, List.mem_append, List.mem_append] at hx
  rcases hx with (hx | hx) | hx
  · exact .inl (List.mem_append_left _ hx)
  · exact .inr (by simpa using hx)
  · exact .inl (List.mem_append_right _ hx)

theorem mem_memberRows_addMethodDef {d : MethodDef} (hx : x ∈ (s.addMethodDef d).2.memberRows) :
    x ∈ s.memberRows ∨ x ∈ d.signature.rows := by
  have rows : (s.addMethodDef d).2.methodDefs = s.methodDefs ++ [d] := rfl
  rw [memberRows, rows, List.flatMap_append, List.mem_append, List.mem_append] at hx
  rcases hx with hx | hx | hx
  · exact .inl (List.mem_append_left _ hx)
  · exact .inl (List.mem_append_right _ hx)
  · exact .inr (by simpa using hx)

theorem memberRows_modifyField {k : FieldId} {f : FieldDef → FieldDef}
    (hf : ∀ d, (f d).signature = d.signature) : (s.modifyField k f).memberRows = s.memberRows :=
  congrArg (· ++ _) (flatMap_modify (g := (·.signature.rows))
    (fun d => congrArg CallSig.rows (hf d)) s.fieldDefs k.index)

theorem memberRows_modifyMethod {k : MethodId} {f : MethodDef → MethodDef}
    (hf : ∀ d, (f d).signature = d.signature) : (s.modifyMethod k f).memberRows = s.memberRows :=
  congrArg (_ ++ ·) (flatMap_modify (g := (·.signature.rows))
    (fun d => congrArg CallSig.rows (hf d)) s.methodDefs k.index)

namespace Tabled

/-- The tables stay, and rows in new signatures have a place. -/
theorem congr (h : s.Tabled i) (ha : (s'.image i).assemblyRefs = (s.image i).assemblyRefs)
    (ht : (s'.image i).typeRefs = (s.image i).typeRefs) (hn : s.nextRow ≤ s'.nextRow)
    (hm : ∀ x ∈ s'.memberRows, x ∈ s.memberRows ∨ s.Placed i x) : s'.Tabled i := by
  have refs : s'.references i = s.references i := by rw [Store.references, ha, ht, Store.references]
  have placed : ∀ {x}, s.Placed i x → s'.Placed i x := fun h => h.grow hn fun y hy => .inl (refs ▸ hy)
  refine ⟨ha ▸ h.assemblies, ht ▸ h.types, fun x hx => placed (h.references x (refs ▸ hx)),
    fun x hx => placed ?_⟩
  exact (hm x hx).elim (h.members x) id

theorem modifyImage (h : s.Tabled i) (hi : i.index < s.images.length) {f : Image → Image}
    (ha : ∀ m, (f m).assemblyRefs = m.assemblyRefs) (ht : ∀ m, (f m).typeRefs = m.typeRefs) :
    (s.modifyImage i f).Tabled i :=
  h.congr (by rw [image_modifyImage hi, ha]) (by rw [image_modifyImage hi, ht]) (Nat.le_refl _)
    fun _ => .inl

/-- A row may be made that is in none of the tables. -/
theorem addRow (h : s.Tabled i) (make : Nat → Row) : (s.addRow make).2.Tabled i :=
  h.congr rfl rfl (Nat.le_succ _) fun _ => .inl

/-- A row with the next number may be added. -/
theorem add (h : s.Tabled i) {r : Row} (hr : r.number? = some s.nextRow)
    (hx : ∀ x ∈ s'.references i, x ∈ s.references i ∨ x = r) (hn : s'.nextRow = s.nextRow + 1)
    (hm : s'.memberRows = s.memberRows)
    (ha : ∀ r ∈ (s'.image i).assemblyRefs, ∃ n a, r = .assemblyRef n a)
    (ht : ∀ r ∈ (s'.image i).typeRefs, ∃ n ns name scope, r = .typeRef n ns name scope) :
    s'.Tabled i := by
  have le : s.nextRow ≤ s'.nextRow := hn ▸ Nat.le_succ _
  have placed : ∀ {x}, s.Placed i x → s'.Placed i x := fun h =>
    h.grow le fun y hy => (hx y hy).imp_right fun hy : y = r => hy.symm ▸ hr
  refine ⟨ha, ht, fun x hmem => ?_, fun x hmem => placed (h.members x (hm ▸ hmem))⟩
  rcases hx x hmem with hmem | rfl
  · exact placed (h.references x hmem)
  · refine ⟨fun hnum => ?_, fun _ y hy hs => ?_⟩
    · cases hr.symm.trans hnum
      exact hn ▸ Nat.lt_succ_self _
    · rcases hx y hy with hy | rfl
      · have := (h.references y hy).number ((Row.number?_of_same hs).symm.trans hr)
        exact absurd this (Nat.lt_irrefl _)
      · rfl

theorem createAssemblyRef (h : s.Tabled i) (hi : i.index < s.images.length) (n : AssemblyName) :
    (s.createAssemblyRef i n).2.Tabled i := by
  have heq : (s.createAssemblyRef i n).2.image i =
      { s.image i with assemblyRefs := (s.image i).assemblyRefs ++ [.assemblyRef s.nextRow n] } :=
    image_modifyImage hi
  refine h.add (r := .assemblyRef s.nextRow n) rfl (fun x hx => ?_) rfl rfl (fun r hr => ?_)
    fun r hr => ?_
  · obtain ⟨r, hr, hx⟩ := mem_references.1 hx
    rw [heq] at hr
    rcases hr with hr | hr
    · rcases List.mem_append.1 hr with hr | hr
      · exact .inl (mem_references.2 ⟨r, .inl hr, hx⟩)
      · obtain rfl := List.mem_singleton.1 hr
        exact .inr (List.mem_singleton.1 hx)
    · exact .inl (mem_references.2 ⟨r, .inr hr, hx⟩)
  · rw [heq] at hr
    rcases List.mem_append.1 hr with hr | hr
    · exact h.assemblies r hr
    · exact ⟨_, _, List.mem_singleton.1 hr⟩
  · rw [heq] at hr
    exact h.types r hr

theorem addTypeRef (h : s.Tabled i) (hi : i.index < s.images.length) (ns name : Bytes) {scope : Row}
    (hs : scope ∈ (s.image i).assemblyRefs ∨ scope ∈ (s.image i).typeRefs) :
    (s.addTypeRef i ns name scope).2.Tabled i := by
  have heq : (s.addTypeRef i ns name scope).2.image i = { s.image i with
      typeRefs := (s.image i).typeRefs ++ [.typeRef s.nextRow ns name scope] } :=
    image_modifyImage hi
  refine h.add (r := .typeRef s.nextRow ns name scope) rfl (fun x hx => ?_) rfl rfl (fun r hr => ?_)
    fun r hr => ?_
  · obtain ⟨r, hr, hx⟩ := mem_references.1 hx
    rw [heq] at hr
    rcases hr with hr | hr
    · exact .inl (mem_references.2 ⟨r, .inl hr, hx⟩)
    · rcases List.mem_append.1 hr with hr | hr
      · exact .inl (mem_references.2 ⟨r, .inr hr, hx⟩)
      · obtain rfl := List.mem_singleton.1 hr
        rcases List.mem_cons.1 hx with hx | hx
        · exact .inr hx
        · exact .inl (mem_references.2 ⟨scope, hs, hx⟩)
  · rw [heq] at hr
    exact h.assemblies r hr
  · rw [heq] at hr
    rcases List.mem_append.1 hr with hr | hr
    · exact h.types r hr
    · exact ⟨_, _, _, _, List.mem_singleton.1 hr⟩

/-- A field may be made if the rows in its signature have a place. -/
theorem createField (h : s.Tabled i) (t : TypeId) (d : FieldDef)
    (hd : ∀ x ∈ d.signature.rows, s.Placed i x) : (s.createField t d).2.Tabled i :=
  h.congr rfl rfl (Nat.le_refl _) fun x hx =>
    (mem_memberRows_addFieldDef (d := { d with declaring := some t }) hx).imp_right (hd x)

theorem createMethod (h : s.Tabled i) (t : TypeId) (d : MethodDef)
    (hd : ∀ x ∈ d.signature.rows, s.Placed i x) : (s.createMethod t d).2.Tabled i :=
  h.congr rfl rfl (Nat.le_refl _) fun x hx =>
    (mem_memberRows_addMethodDef (d := { d with declaring := some t }) hx).imp_right (hd x)

theorem modifyField (h : s.Tabled i) (k : FieldId) {f : FieldDef → FieldDef}
    (hf : ∀ d, (f d).head = d.head) : (s.modifyField k f).Tabled i :=
  h.congr rfl rfl (Nat.le_refl _) fun _ hx =>
    .inl (memberRows_modifyField (fun d => congrArg (·.2.1) (hf d)) ▸ hx)

theorem modifyMethod (h : s.Tabled i) (k : MethodId) {f : MethodDef → MethodDef}
    (hf : ∀ d, (f d).head = d.head) : (s.modifyMethod k f).Tabled i :=
  h.congr rfl rfl (Nat.le_refl _) fun _ hx =>
    .inl (memberRows_modifyMethod (fun d => congrArg (·.2.1) (hf d)) ▸ hx)

end Tabled

end CilCatalog.Live.Store
