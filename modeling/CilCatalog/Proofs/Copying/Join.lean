import CilCatalog.Proofs.Copying.Furnish

/-!
# New members

A field or method of the copy is made in its declaring type, and remembered right after.
-/

namespace CilCatalog

open Live

namespace Copy

variable {C : Copy} {σ σ' : Store} {w : WriteState} {p : Row} {t : TypeId} {fs : List FieldId}
  {ms : List MethodId}

variable (C) in
/-- A type has got new members at the end of its lists, which say so themselves; methods are without a body. -/
structure Joins (σ σ' : Store) (t : TypeId) (fs : List FieldId) (ms : List MethodId) : Prop where
  typeIn : σ.TypeIn C.base t
  length : σ'.typeDefs.length = σ.typeDefs.length
  own : σ'.typeDef t = { σ.typeDef t with
    fields := (σ.typeDef t).fields ++ fs, methods := (σ.typeDef t).methods ++ ms }
  others : ∀ u, u ≠ t → σ'.typeDef u = σ.typeDef u
  fieldDefs : ∃ ds, σ'.fieldDefs = σ.fieldDefs ++ ds
  methodDefs : ∃ ds, σ'.methodDefs = σ.methodDefs ++ ds
  newFields : ∀ f ∈ fs, σ.fieldDefs.length ≤ f.index ∧ f.index < σ'.fieldDefs.length ∧
    (σ'.fieldDef f).declaring = some t ∧ C.Made σ' 0 (σ'.fieldDef f).signature.rows
  newMethods : ∀ f ∈ ms, σ.methodDefs.length ≤ f.index ∧ f.index < σ'.methodDefs.length ∧
    (σ'.methodDef f).declaring = some t ∧ C.Made σ' 0 (σ'.methodDef f).signature.rows
  images : σ'.images = σ.images
  nextRow : σ'.nextRow = σ.nextRow

namespace Joins

variable (h : C.Joins σ σ' t fs ms)

include h

theorem image (i : ImageId) : σ'.image i = σ.image i := by
  rw [Store.image, Store.image, h.images]

theorem inCopy {u : TypeId} : σ'.TypeIn C.base u ↔ σ.TypeIn C.base u := by
  rw [Store.TypeIn, Store.TypeIn, h.length]

/-- A type has the members that it had, and the new ones if it is theirs. -/
theorem typeDef (u : TypeId) : ∃ fs' ms', σ'.typeDef u = { σ.typeDef u with
      fields := (σ.typeDef u).fields ++ fs', methods := (σ.typeDef u).methods ++ ms' } ∧
    (∀ f ∈ fs', f ∈ fs ∧ u = t) ∧ ∀ f ∈ ms', f ∈ ms ∧ u = t := by
  by_cases heq : u = t
  · subst heq
    exact ⟨fs, ms, h.own, fun f hf => ⟨hf, rfl⟩, fun f hf => ⟨hf, rfl⟩⟩
  · refine ⟨[], [], ?_, nofun, nofun⟩
    rw [h.others u heq, List.append_nil, List.append_nil]

theorem fieldDef {f : FieldId} (hf : f.index < σ.fieldDefs.length) : σ'.fieldDef f = σ.fieldDef f := by
  obtain ⟨ds, hds⟩ := h.fieldDefs
  exact Store.fieldDef_append hds hf

theorem methodDef {f : MethodId} (hf : f.index < σ.methodDefs.length) :
    σ'.methodDef f = σ.methodDef f := by
  obtain ⟨ds, hds⟩ := h.methodDefs
  exact Store.methodDef_append hds hf

theorem store : σ.Extends σ' where
  typesLe := Nat.le_of_eq h.length.symm
  fieldsLe := by
    obtain ⟨ds, hds⟩ := h.fieldDefs
    rw [hds, List.length_append]
    exact Nat.le_add_right _ _
  methodsLe := by
    obtain ⟨ds, hds⟩ := h.methodDefs
    rw [hds, List.length_append]
    exact Nat.le_add_right _ _
  types u _ := by
    obtain ⟨_, _, heq, -⟩ := h.typeDef u
    rw [heq]
    rfl
  fields f hf := by rw [h.fieldDef hf]
  methods f hf := by rw [h.methodDef hf]

theorem kept (u : TypeId) : TypeKept σ σ' u := by
  obtain ⟨fs', ms', heq, hfs, hms⟩ := h.typeDef u
  refine ⟨[], fs', ms', ?_, nofun, fun f hf => (h.newFields f (hfs f hf).1).1,
    fun f hf => (h.newMethods f (hms f hf).1).1⟩
  rw [heq, List.append_nil]

theorem mem_fields {u : TypeId} {f : FieldId} (hf : f ∈ (σ'.typeDef u).fields) :
    f ∈ (σ.typeDef u).fields ∨ f ∈ fs ∧ u = t := by
  obtain ⟨fs', ms', heq, hfs, -⟩ := h.typeDef u
  rw [heq] at hf
  exact (List.mem_append.1 hf).imp_right (hfs f)

theorem mem_methods {u : TypeId} {f : MethodId} (hf : f ∈ (σ'.typeDef u).methods) :
    f ∈ (σ.typeDef u).methods ∨ f ∈ ms ∧ u = t := by
  obtain ⟨fs', ms', heq, -, hms⟩ := h.typeDef u
  rw [heq] at hf
  exact (List.mem_append.1 hf).imp_right (hms f)

theorem nestedTypes (u : TypeId) : (σ'.typeDef u).nestedTypes = (σ.typeDef u).nestedTypes := by
  obtain ⟨_, _, heq, -⟩ := h.typeDef u
  rw [heq]

theorem grown (hg : C.Ground σ) : C.Grown σ σ' where
  store := h.store
  images := by rw [h.images]
  layers hu hnew := absurd (h.inCopy.1 hu) hnew
  tops := ⟨[], by rw [h.image, List.append_nil], nofun⟩
  nested hu hn := .inl ⟨h.inCopy.1 hu, h.nestedTypes _ ▸ hn⟩
  fields hu hf := by
    rcases h.mem_fields hf with hf | ⟨hf, rfl⟩
    · exact .inl ⟨h.inCopy.1 hu, hf⟩
    · exact .inr (h.newFields _ hf).2
  methods hu hf := by
    rcases h.mem_methods hf with hf | ⟨hf, rfl⟩
    · exact .inl ⟨h.inCopy.1 hu, hf⟩
    · exact .inr (h.newMethods _ hf).2
  assemblyRefs := by
    rw [h.image]
    exact List.Subset.refl _
  typeRefs := by
    rw [h.image]
    exact List.Subset.refl _
  nextRow := Nat.le_of_eq h.nextRow.symm
  tables := hg.tables.bump (by rw [h.image]) (by rw [h.image]) (Nat.le_of_eq h.nextRow.symm)

end Joins

/-- New members leave everything as it should be, but are not yet remembered. -/
theorem Faithful.join (hw : C.Faithful .null w) (h : C.Joins w.store σ' t fs ms)
    (hf : ∀ f ∈ fs, p = .fieldDef f) (hm : ∀ f ∈ ms, p = .methodDef f) :
    C.Faithful p { w with store := σ' } ∧ w.Refers { w with store := σ' } := by
  have grown := h.grown hw.ground
  have step : w.Refers { w with store := σ' } :=
    grown.refers hw.image (fun u _ => h.kept u) (fun f hf => h.fieldDef hf) fun f hf => h.methodDef hf
  refine ⟨hw.grow grown ⟨?_, ?_, ?_⟩ (hw.copied.refers hw.remembered step), step⟩
  · intro u n hu hn
    rw [h.nestedTypes] at hn
    exact .inr ((hw.listed.types (h.inCopy.1 hu) hn).resolve_left nofun)
  · intro u f hu hmem
    rcases h.mem_fields hmem with hmem | ⟨hmem, -⟩
    · exact .inr ((hw.listed.fields (h.inCopy.1 hu) hmem).resolve_left nofun)
    · exact .inl (hf f hmem)
  · intro u f hu hmem
    rcases h.mem_methods hmem with hmem | ⟨hmem, -⟩
    · exact .inr ((hw.listed.methods (h.inCopy.1 hu) hmem).resolve_left nofun)
    · exact .inl (hm f hmem)

/-! ### Making members -/

/-- A field that has just been made. -/
theorem fieldDef_createField (t : TypeId) (d : FieldDef) :
    (σ.createField t d).2.fieldDef ⟨σ.fieldDefs.length⟩ = { d with declaring := some t } :=
  Store.fieldDef_new (s := σ) rfl

/-- A method that has just been made. -/
theorem methodDef_createMethod (t : TypeId) (d : MethodDef) :
    (σ.createMethod t d).2.methodDef ⟨σ.methodDefs.length⟩ = { d with declaring := some t } :=
  Store.methodDef_new (s := σ) rfl

theorem joins_createField {d : FieldDef} (ht : σ.TypeIn C.base t)
    (hm : C.Made σ 0 d.signature.rows) :
    C.Joins σ (σ.createField t d).2 t [⟨σ.fieldDefs.length⟩] [] := by
  have happend : (σ.createField t d).2.fieldDefs = σ.fieldDefs ++ [{ d with declaring := some t }] := rfl
  refine ⟨ht, Store.length_modifyType _ _, ?_, fun u hu => ?_, ⟨_, happend⟩, ⟨[], ?_⟩, fun f hf => ?_,
    nofun, rfl, rfl⟩
  · rw [List.append_nil]
    exact Store.typeDef_modifyType (s := (σ.addFieldDef { d with declaring := some t }).2) ht.2
  · exact Store.typeDef_modifyType_of_ne (s := (σ.addFieldDef { d with declaring := some t }).2) hu
  · exact (List.append_nil _).symm
  · cases List.mem_singleton.1 hf
    rw [fieldDef_createField, happend, List.length_append]
    exact ⟨Nat.le_refl _, Nat.lt_succ_self _, rfl, hm⟩

theorem joins_createMethod {d : MethodDef} (ht : σ.TypeIn C.base t)
    (hm : C.Made σ 0 d.signature.rows) :
    C.Joins σ (σ.createMethod t d).2 t [] [⟨σ.methodDefs.length⟩] := by
  have happend : (σ.createMethod t d).2.methodDefs = σ.methodDefs ++ [{ d with declaring := some t }] := rfl
  refine ⟨ht, Store.length_modifyType _ _, ?_, fun u hu => ?_, ⟨[], ?_⟩, ⟨_, happend⟩, nofun,
    fun f hf => ?_, rfl, rfl⟩
  · rw [List.append_nil]
    exact Store.typeDef_modifyType (s := (σ.addMethodDef { d with declaring := some t }).2) ht.2
  · exact Store.typeDef_modifyType_of_ne (s := (σ.addMethodDef { d with declaring := some t }).2) hu
  · exact (List.append_nil _).symm
  · cases List.mem_singleton.1 hf
    rw [methodDef_createMethod, happend, List.length_append]
    exact ⟨Nat.le_refl _, Nat.lt_succ_self _, rfl, hm⟩

/-! ### Remembering members -/

variable {id : MemberIdentity} {r : Row}

theorem FieldStands.pending (h : C.FieldStands σ id r) (hp : p = .null ∨ p = r) :
    (∀ n, p ≠ .typeDef n) ∧ ∀ f, p ≠ .methodDef f := by
  rcases hp with rfl | rfl
  · exact ⟨nofun, nofun⟩
  · cases h <;> exact ⟨nofun, nofun⟩

theorem MethodStands.pending (h : C.MethodStands σ id r) (hp : p = .null ∨ p = r) :
    (∀ n, p ≠ .typeDef n) ∧ ∀ f, p ≠ .fieldDef f := by
  rcases hp with rfl | rfl
  · exact ⟨nofun, nofun⟩
  · cases h <;> exact ⟨nofun, nofun⟩

/-- A row that stands for a field may be remembered. -/
theorem Faithful.rememberField (hw : C.Faithful p w) (hp : p = .null ∨ p = r) (hid : C.IsField id)
    (hs : C.FieldStands w.store id r) (hnew : w.writer.fields.find? id = none) :
    let w' : WriteState := { w with writer := { w.writer with
      fields := w.writer.fields ++ [(id, ⟨r, .reference⟩)] } }
    C.Faithful .null w' ∧ w.Refers w' := by
  intro w'
  have hfind : w'.writer.fields.find? id = some ⟨r, .reference⟩ := Memory.find?_append_self hnew
  have cases : ∀ {id' e}, w'.writer.fields.find? id' = some e →
      (id = id' ∧ e = ⟨r, .reference⟩) ∨ w.writer.fields.find? id' = some e :=
    fun h => Memory.of_find?_append trivial trivial hnew h
  have kept : ∀ {id' e}, w.writer.fields.find? id' = some e → w'.writer.fields.find? id' = some e :=
    fun h => Memory.find?_append_of_some h
  have step : w.Refers w' := by
    refine ⟨.refl _, fun _ _ => .of_eq rfl, fun _ _ => rfl, fun _ _ => rfl, fun _ h => h,
      fun h => kept h, fun h => h, fun _ h _ => h, fun {id' e} he hl => ?_, fun h => .inl h, rfl,
      List.Subset.refl _, List.Subset.refl _, Nat.le_refl _⟩
    rcases cases he with ⟨-, rfl⟩ | he
    · exact absurd hl (show ¬ Level.definition ≤ .reference by decide)
    · exact he
  obtain ⟨noType, noOther⟩ := hs.pending hp
  refine ⟨⟨hw.image, hw.hooks, hw.ground, ⟨?_, ?_, ?_⟩, ⟨hw.remembered.normal, hw.remembered.types,
    hw.remembered.assemblies, ?_, hw.remembered.methods⟩, hw.copied.refers hw.remembered step⟩, step⟩
  · intro t n ht hn
    rcases hw.listed.types ht hn with hpn | h
    · exact absurd hpn (noType n)
    · exact .inr h
  · intro t f ht hf
    rcases hw.listed.fields ht hf with hpf | ⟨id', e, he, hrow⟩
    · rcases hp with hp | rfl
      · rw [hp] at hpf
        exact nomatch hpf
      · exact .inr ⟨id, _, hfind, hpf⟩
    · exact .inr ⟨id', e, kept he, hrow⟩
  · intro t f ht hf
    rcases hw.listed.methods ht hf with hpf | h
    · exact absurd hpf (noOther f)
    · exact .inr h
  · intro id' e he
    rcases cases he with ⟨rfl, rfl⟩ | he
    · exact ⟨hid, hs⟩
    · exact hw.remembered.fields he

/-- A row that stands for a method, which has no body, may be remembered. -/
theorem Faithful.rememberMethod (hw : C.Faithful p w) (hp : p = .null ∨ p = r) (hid : C.IsMethod id)
    (hs : C.MethodStands w.store id r) (hnew : w.writer.methods.find? id = none)
    (hb : ∀ f, r = .methodDef f → (w.store.methodDef f).body = none) :
    let w' : WriteState := { w with writer := { w.writer with
      methods := w.writer.methods ++ [(id, ⟨r, .reference⟩)] } }
    C.Faithful .null w' ∧ w.Refers w' := by
  intro w'
  have hfind : w'.writer.methods.find? id = some ⟨r, .reference⟩ := Memory.find?_append_self hnew
  have cases : ∀ {id' e}, w'.writer.methods.find? id' = some e →
      (id = id' ∧ e = ⟨r, .reference⟩) ∨ w.writer.methods.find? id' = some e :=
    fun h => Memory.of_find?_append trivial trivial hnew h
  have kept : ∀ {id' e}, w.writer.methods.find? id' = some e → w'.writer.methods.find? id' = some e :=
    fun h => Memory.find?_append_of_some h
  have step : w.Refers w' := by
    refine ⟨.refl _, fun _ _ => .of_eq rfl, fun _ _ => rfl, fun _ _ => rfl, fun _ h => h,
      fun h => h, fun h => kept h, fun _ h _ => h, fun h _ => h, fun {id' e} he => ?_, rfl,
      List.Subset.refl _, List.Subset.refl _, Nat.le_refl _⟩
    rcases cases he with ⟨-, rfl⟩ | he
    · refine .inr ⟨show ¬ Level.definition ≤ .reference by decide, fun g hg => ⟨?_, hb g hg⟩⟩
      cases hg
      cases hs with
      | defined _ _ hf => exact hf
    · exact .inl he
  obtain ⟨noType, noOther⟩ := hs.pending hp
  refine ⟨⟨hw.image, hw.hooks, hw.ground, ⟨?_, ?_, ?_⟩, ⟨hw.remembered.normal, hw.remembered.types,
    hw.remembered.assemblies, hw.remembered.fields, ?_⟩, hw.copied.refers hw.remembered step⟩, step⟩
  · intro t n ht hn
    rcases hw.listed.types ht hn with hpn | h
    · exact absurd hpn (noType n)
    · exact .inr h
  · intro t f ht hf
    rcases hw.listed.fields ht hf with hpf | h
    · exact absurd hpf (noOther f)
    · exact .inr h
  · intro t f ht hf
    rcases hw.listed.methods ht hf with hpf | ⟨id', e, he, hrow⟩
    · rcases hp with hp | rfl
      · rw [hp] at hpf
        exact nomatch hpf
      · exact .inr ⟨id, _, hfind, hpf⟩
    · exact .inr ⟨id', e, kept he, hrow⟩
  · intro id' e he
    rcases cases he with ⟨rfl, rfl⟩ | he
    · exact ⟨hid, hs⟩
    · exact hw.remembered.methods he

end Copy

end CilCatalog
