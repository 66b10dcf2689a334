import CilCatalog.Proofs.Copying.Furnish

/-!
# New types

A type of the copy is made inside of another, or on its own, without contents or members; it is remembered right after.
-/

namespace CilCatalog

open Live

namespace Copy

variable {C : Copy} {σ σ' : Store} {w : WriteState} {d : TypeDef}

variable (C) in
/-- There is one more type, which is empty, in the list of the type or module that it is in. -/
structure Houses (σ σ' : Store) (d : TypeDef) : Prop where
  image : d.image = C.image
  empty : d.nestedTypes = [] ∧ d.fields = [] ∧ d.methods = []
  around : ∀ o, d.declaring = some o → σ.TypeIn C.base o
  length : σ'.typeDefs.length = σ.typeDefs.length + 1
  new : σ'.typeDef ⟨σ.typeDefs.length⟩ = d
  old : ∀ t : TypeId, t.index < σ.typeDefs.length →
    ∃ ns, σ'.typeDef t = { σ.typeDef t with nestedTypes := (σ.typeDef t).nestedTypes ++ ns } ∧
      ∀ n ∈ ns, n = ⟨σ.typeDefs.length⟩ ∧ d.declaring = some t
  fieldDefs : σ'.fieldDefs = σ.fieldDefs
  methodDefs : σ'.methodDefs = σ.methodDefs
  images : σ'.images.length = σ.images.length
  tops : ∃ ts, (σ'.image C.image).types = (σ.image C.image).types ++ ts ∧
    ∀ t ∈ ts, t = ⟨σ.typeDefs.length⟩ ∧ d.declaring = none
  assemblyRefs : (σ'.image C.image).assemblyRefs = (σ.image C.image).assemblyRefs
  typeRefs : (σ'.image C.image).typeRefs = (σ.image C.image).typeRefs
  nextRow : σ'.nextRow = σ.nextRow

namespace Houses

variable (h : C.Houses σ σ' d)

include h

theorem head (t : TypeId) (ht : t.index < σ.typeDefs.length) :
    (σ'.typeDef t).head = (σ.typeDef t).head := by
  obtain ⟨ns, heq, -⟩ := h.old t ht
  rw [heq]
  rfl

theorem fieldDef (f : FieldId) : σ'.fieldDef f = σ.fieldDef f := by
  rw [Store.fieldDef, Store.fieldDef, h.fieldDefs]

theorem methodDef (f : MethodId) : σ'.methodDef f = σ.methodDef f := by
  rw [Store.methodDef, Store.methodDef, h.methodDefs]

theorem store : σ.Extends σ' where
  typesLe := by
    rw [h.length]
    exact Nat.le_succ _
  fieldsLe := Nat.le_of_eq (by rw [h.fieldDefs])
  methodsLe := Nat.le_of_eq (by rw [h.methodDefs])
  types := h.head
  fields f _ := by rw [h.fieldDef]
  methods f _ := by rw [h.methodDef]

/-- A type of the copy is an old one or the new one. -/
theorem cases {t : TypeId} (ht : σ'.TypeIn C.base t) :
    σ.TypeIn C.base t ∨ t = ⟨σ.typeDefs.length⟩ := by
  obtain ⟨hb, hlt⟩ := ht
  rw [h.length] at hlt
  rcases Nat.lt_or_eq_of_le (Nat.le_of_lt_succ hlt) with hlt | heq
  · exact .inl ⟨hb, hlt⟩
  · refine .inr ?_
    cases t
    cases heq
    rfl

theorem typeIn_new (hg : C.Ground σ) : σ'.TypeIn C.base ⟨σ.typeDefs.length⟩ :=
  ⟨Nat.le_of_lt hg.base, by rw [h.length]; exact Nat.lt_succ_self _⟩

/-- A member of a list of nested types has been there, or is the new type in the type around it. -/
theorem mem_nested {t n : TypeId} (ht : σ'.TypeIn C.base t) (hn : n ∈ (σ'.typeDef t).nestedTypes) :
    σ.TypeIn C.base t ∧ n ∈ (σ.typeDef t).nestedTypes ∨
      n = ⟨σ.typeDefs.length⟩ ∧ d.declaring = some t := by
  rcases h.cases ht with ht | rfl
  · obtain ⟨ns, heq, hns⟩ := h.old t ht.2
    rw [heq] at hn
    rcases List.mem_append.1 hn with hn | hn
    · exact .inl ⟨ht, hn⟩
    · exact .inr (hns n hn)
  · rw [h.new, h.empty.1] at hn
    exact nomatch hn

theorem mem_fields {t : TypeId} {f : FieldId} (ht : σ'.TypeIn C.base t)
    (hf : f ∈ (σ'.typeDef t).fields) : σ.TypeIn C.base t ∧ f ∈ (σ.typeDef t).fields := by
  rcases h.cases ht with ht | rfl
  · obtain ⟨ns, heq, -⟩ := h.old t ht.2
    rw [heq] at hf
    exact ⟨ht, hf⟩
  · rw [h.new, h.empty.2.1] at hf
    exact nomatch hf

theorem mem_methods {t : TypeId} {f : MethodId} (ht : σ'.TypeIn C.base t)
    (hf : f ∈ (σ'.typeDef t).methods) : σ.TypeIn C.base t ∧ f ∈ (σ.typeDef t).methods := by
  rcases h.cases ht with ht | rfl
  · obtain ⟨ns, heq, -⟩ := h.old t ht.2
    rw [heq] at hf
    exact ⟨ht, hf⟩
  · rw [h.new, h.empty.2.2] at hf
    exact nomatch hf

theorem grown (hg : C.Ground σ) : C.Grown σ σ' where
  store := h.store
  images := h.images
  layers ht hnew := by
    obtain rfl := (h.cases ht).resolve_left hnew
    rw [h.new]
    exact ⟨h.image, fun o ho => h.around o ho⟩
  tops := by
    obtain ⟨ts, heq, hts⟩ := h.tops
    refine ⟨ts, heq, fun t ht => ?_⟩
    obtain ⟨rfl, hd⟩ := hts t ht
    exact ⟨h.typeIn_new hg, by rw [h.new, hd]⟩
  nested ht hn := by
    refine (h.mem_nested ht hn).imp_right ?_
    rintro ⟨rfl, hd⟩
    exact ⟨h.typeIn_new hg, by rw [h.new, hd]⟩
  fields ht hf := .inl (h.mem_fields ht hf)
  methods ht hf := .inl (h.mem_methods ht hf)
  assemblyRefs := by
    rw [h.assemblyRefs]
    exact List.Subset.refl _
  typeRefs := by
    rw [h.typeRefs]
    exact List.Subset.refl _
  nextRow := Nat.le_of_eq h.nextRow.symm
  tables := hg.tables.bump h.assemblyRefs h.typeRefs (Nat.le_of_eq h.nextRow.symm)

end Houses

/-- A new type leaves everything as it should be, but is not yet remembered. -/
theorem Faithful.house (hw : C.Faithful .null w) (h : C.Houses w.store σ' d) :
    C.Faithful (.typeDef ⟨w.store.typeDefs.length⟩) { w with store := σ' } ∧
      w.TypeStep { w with store := σ' } := by
  have kept : ∀ t : TypeId, t.index < w.store.typeDefs.length → TypeKept w.store σ' t := by
    intro t ht
    obtain ⟨ns, heq, hns⟩ := h.old t ht
    refine ⟨ns, [], [], ?_, fun n hn => ?_, nofun, nofun⟩
    · simp only [List.append_nil]
      exact heq
    · exact Nat.le_of_eq (by rw [(hns n hn).1])
  have grown := h.grown hw.ground
  have step : w.Refers { w with store := σ' } :=
    grown.refers hw.image kept (fun f _ => h.fieldDef f) fun f _ => h.methodDef f
  refine ⟨hw.grow grown ⟨?_, ?_, ?_⟩ (hw.copied.refers hw.remembered step),
    step, h.fieldDefs, h.methodDefs, rfl, rfl⟩
  · intro t n ht hn
    rcases h.mem_nested ht hn with ⟨ht, hn⟩ | ⟨rfl, -⟩
    · exact .inr ((hw.listed.types ht hn).resolve_left nofun)
    · exact .inl rfl
  · intro t f ht hf
    obtain ⟨ht, hf⟩ := h.mem_fields ht hf
    exact .inr ((hw.listed.fields ht hf).resolve_left nofun)
  · intro t f ht hf
    obtain ⟨ht, hf⟩ := h.mem_methods ht hf
    exact .inr ((hw.listed.methods ht hf).resolve_left nofun)

/-! ### Making types -/

theorem houses_createType (hg : C.Ground σ) (ns name : Bytes) :
    C.Houses σ (σ.createType C.image ns name).2 { image := C.image, ns, name } := by
  have himage : (σ.createType C.image ns name).2.image C.image =
      { σ.image C.image with types := (σ.image C.image).types ++ [⟨σ.typeDefs.length⟩] } :=
    Store.image_modifyImage hg.image
  have happend : (σ.createType C.image ns name).2.typeDefs =
      σ.typeDefs ++ [{ image := C.image, ns, name }] := rfl
  refine ⟨rfl, ⟨rfl, rfl, rfl⟩, nofun, ?_, Store.typeDef_new happend, fun t ht => ⟨[], ?_, nofun⟩,
    rfl, rfl, Store.length_modifyImage _ _, ⟨[⟨σ.typeDefs.length⟩], by rw [himage], fun t ht => ?_⟩,
    by rw [himage], by rw [himage], rfl⟩
  · rw [happend, List.length_append]
    rfl
  · rw [Store.typeDef_append happend ht, List.append_nil]
  · exact ⟨List.mem_singleton.1 ht, rfl⟩

theorem houses_createNestedType (ns name : Bytes) {outer : TypeId}
    (ho : σ.TypeIn C.base outer) : C.Houses σ (σ.createNestedType C.image ns name outer).2
      { image := C.image, ns, name, declaring := some outer } := by
  -- the store with the new type, which is not yet in the list of the other
  let d : TypeDef := { image := C.image, ns, name, declaring := some outer }
  let σ₁ : Store := { σ with typeDefs := σ.typeDefs ++ [d] }
  have happend : σ₁.typeDefs = σ.typeDefs ++ [d] := rfl
  have hlength : σ₁.typeDefs.length = σ.typeDefs.length + 1 := by
    rw [happend, List.length_append]
    rfl
  have hnew : (⟨σ.typeDefs.length⟩ : TypeId) ≠ outer := by
    rintro rfl
    exact Nat.lt_irrefl _ ho.2
  refine ⟨rfl, ⟨rfl, rfl, rfl⟩, ?_, ?_, ?_, fun t ht => ?_, rfl, rfl, rfl, ⟨[], ?_, nofun⟩, rfl, rfl,
    rfl⟩
  · rintro o ⟨⟩
    exact ho
  · exact (Store.length_modifyType _ _).trans hlength
  · exact (Store.typeDef_modifyType_of_ne (s := σ₁) hnew).trans (Store.typeDef_new happend)
  · by_cases heq : t = outer
    · subst heq
      refine ⟨[⟨σ.typeDefs.length⟩], ?_, fun n hn => ⟨List.mem_singleton.1 hn, rfl⟩⟩
      refine (Store.typeDef_modifyType (s := σ₁) (by rw [hlength]; exact Nat.lt_succ_of_lt ht)).trans ?_
      rw [Store.typeDef_append happend ht]
    · refine ⟨[], ?_, nofun⟩
      refine (Store.typeDef_modifyType_of_ne (s := σ₁) heq).trans ?_
      rw [Store.typeDef_append happend ht, List.append_nil]
  · rw [List.append_nil]
    rfl

/-- A type that has just been made, on its own. -/
theorem identity_createType (hg : C.Ground σ) (ns name : Bytes) :
    Reading.definitionIdentity (σ.createType C.image ns name).2 ⟨σ.typeDefs.length⟩ =
      ⟨name, ns, none, none⟩ := by
  have hnew := (houses_createType hg ns name).new
  rw [definitionIdentity_top (by rw [hnew]), hnew]

/-- A type that has just been made in another. -/
theorem identity_createNestedType (hg : C.Ground σ) (ns name : Bytes) {outer : TypeId}
    (ho : σ.TypeIn C.base outer) :
    Reading.definitionIdentity (σ.createNestedType C.image ns name outer).2 ⟨σ.typeDefs.length⟩ =
      ⟨name, (Reading.definitionIdentity σ outer).ns, none, some ((σ.typeDef outer).name ::
        (Reading.definitionIdentity σ outer).enclosing.getD [])⟩ := by
  have h := houses_createNestedType ns name ho
  have hrooted := (hg.grow (h.grown hg)).layered.rooted (h.typeIn_new hg)
  rw [definitionIdentity_nested hrooted (by rw [h.new]), h.new,
    definitionIdentity_extends hg.layered h.store ho, Store.typeName_extends ho.2 h.store]

end Copy

end CilCatalog
