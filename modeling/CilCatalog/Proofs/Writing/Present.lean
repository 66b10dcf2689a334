import CilCatalog.Proofs.Writing.Filed
import CilCatalog.Proofs.Writing.Makes

/-!
# Rows that are there

The rows that a writer finds for types, fields and methods are there, whatever its owner answers, if those are that it remembers, that it is answered, or that are in lists.

* `WriteState.Sound`: what the writer may come across is there, and no type is nested in itself.
* `WriteState.Sound.typeRow`, `WriteState.Sound.fieldRow`, `WriteState.Sound.methodRow`: so is what it finds.
-/

namespace CilCatalog

open Live

namespace Live.Store

variable {s s' : Store} {i : ImageId} {t o : TypeId}

theorem making_noLess : Making fun w w' => w.store.NoLess w'.store where
  trans h h' := ⟨Nat.le_trans h.types h'.types, Nat.le_trans h.fields h'.fields,
    Nat.le_trans h.methods h'.methods⟩
  rows hs := ⟨hs.typeDefs ▸ Nat.le_refl _, hs.fieldDefs ▸ Nat.le_refl _, hs.methodDefs ▸ Nat.le_refl _⟩
  addType w j ns name := by
    refine ⟨?_, Nat.le_refl _, Nat.le_refl _⟩
    change _ ≤ (w.store.typeDefs ++ [_]).length
    exact List.length_append ▸ Nat.le_succ _
  addNestedType w j ns name o :=
    ⟨length_createNestedType ns name ▸ Nat.le_succ _, Nat.le_refl _, Nat.le_refl _⟩
  addField w t d := by
    refine ⟨length_modifyType t _ ▸ Nat.le_refl _, ?_, Nat.le_refl _⟩
    change _ ≤ (w.store.fieldDefs ++ [_]).length
    exact List.length_append ▸ Nat.le_succ _
  addMethod w t d := by
    refine ⟨length_modifyType t _ ▸ Nat.le_refl _, Nat.le_refl _, ?_⟩
    change _ ≤ (w.store.methodDefs ++ [_]).length
    exact List.length_append ▸ Nat.le_succ _
  note _ _ _ := ⟨Nat.le_refl _, Nat.le_refl _, Nat.le_refl _⟩
  noteType _ _ _ := ⟨Nat.le_refl _, Nat.le_refl _, Nat.le_refl _⟩
  noteField _ _ _ := ⟨Nat.le_refl _, Nat.le_refl _, Nat.le_refl _⟩
  noteMethod _ _ _ := ⟨Nat.le_refl _, Nat.le_refl _, Nat.le_refl _⟩

/-! ### Nesting -/

/-- Types are nested in types that are there, and none is nested in itself: each is deeper than the one around it. -/
def Tiered (s : Store) : Prop :=
  ∃ depth : TypeId → Nat, ∀ {t o}, (s.typeDef t).declaring = some o →
    o.index < s.typeDefs.length ∧ depth o < depth t

/-- What is new is in types that have been there, which makes it deeper than they are. -/
theorem Tiered.grow (h : s.Tiered) (hn : s.typeDefs.length ≤ s'.typeDefs.length)
    (old : ∀ t : TypeId, t.index < s.typeDefs.length →
      (s'.typeDef t).declaring = (s.typeDef t).declaring)
    (new : ∀ {t o : TypeId}, s.typeDefs.length ≤ t.index → (s'.typeDef t).declaring = some o →
      o.index < s.typeDefs.length) : s'.Tiered := by
  obtain ⟨depth, hdepth⟩ := h
  let depth' (t : TypeId) : Nat :=
    if t.index < s.typeDefs.length then depth t else ((s'.typeDef t).declaring.map (depth · + 1)).getD 0
  refine ⟨depth', fun {t o} ho => ?_⟩
  rcases Nat.lt_or_ge t.index s.typeDefs.length with hlt | hge
  · obtain ⟨holt, hless⟩ := hdepth (old t hlt ▸ ho)
    refine ⟨Nat.lt_of_lt_of_le holt hn, ?_⟩
    simpa only [depth', if_pos holt, if_pos hlt] using hless
  · have holt := new hge ho
    refine ⟨Nat.lt_of_lt_of_le holt hn, ?_⟩
    simp only [depth', if_pos holt, if_neg (Nat.not_lt.2 hge), ho, Option.map_some, Option.getD_some]
    exact Nat.lt_succ_self _

theorem Tiered.of_declaring (h : s.Tiered) (hn : s.typeDefs.length ≤ s'.typeDefs.length)
    (hd : ∀ t, (s'.typeDef t).declaring = (s.typeDef t).declaring) : s'.Tiered :=
  h.grow hn (fun t _ => hd t) fun hge ho => absurd (type_lt (hd _ ▸ ho)) (Nat.not_lt.2 hge)

theorem Tiered.addType (h : s.Tiered) {d : TypeDef} (hd : s'.typeDefs = s.typeDefs ++ [d])
    (hnone : d.declaring = none) : s'.Tiered := by
  refine h.grow ?_ (fun t ht => by rw [typeDef_append hd ht]) fun hge ho => ?_
  · rw [hd, List.length_append]
    exact Nat.le_add_right _ _
  · cases hnone.symm.trans ((new_type_iff hd).1 ⟨hge, ho⟩).2

theorem Tiered.createType (h : s.Tiered) (ns name : Bytes) : (s.createType i ns name).2.Tiered :=
  h.addType rfl rfl

theorem Tiered.createImage (h : s.Tiered) (name : Bytes) : (s.createImage name).2.Tiered :=
  h.addType (typeDefs_createImage name) rfl

/-- A new type may be put in one that is there. -/
theorem Tiered.createNestedType (h : s.Tiered) (ns name : Bytes) (ho : o.index < s.typeDefs.length) :
    (s.createNestedType i ns name o).2.Tiered := by
  have he := (Grows.createNestedType (s := s) (i := i) ns name o).toExtends
  refine h.grow he.typesLe (fun t ht => declaring_extends ht he) fun hge hu => ?_
  exact ((new_nested_iff ns name).1 ⟨hge, hu⟩).2 ▸ ho

theorem Tiered.enrols (h : s.Tiered) (he : s.Enrols i s') : s'.Tiered :=
  h.grow he.typesLe (fun _ ht => declaring_extends ht he.toExtends) he.typeOuter

/-! ### Lists -/

/-- A module has its global type, and what is listed in it or in a type is there. -/
structure Peopled (i : ImageId) (s : Store) : Prop where
  global : (s.image i).types ≠ []
  tops : ∀ t ∈ (s.image i).types, t.index < s.typeDefs.length
  nested : ∀ {o n}, n ∈ (s.typeDef o).nestedTypes → n.index < s.typeDefs.length
  fields : ∀ {t f}, f ∈ (s.typeDef t).fields → f.index < s.fieldDefs.length
  methods : ∀ {t f}, f ∈ (s.typeDef t).methods → f.index < s.methodDefs.length

namespace Peopled

theorem globalType (h : s.Peopled i) : (s.globalType i).index < s.typeDefs.length := by
  obtain ⟨t, ts, hts⟩ := List.exists_cons_of_ne_nil h.global
  refine h.tops _ ?_
  rw [Store.globalType, hts]
  exact List.mem_cons_self

/-- There is more, and the lists have nothing else. -/
theorem grow (h : s.Peopled i) (ht : s.typeDefs.length ≤ s'.typeDefs.length)
    (hf : s.fieldDefs.length ≤ s'.fieldDefs.length)
    (hm : s.methodDefs.length ≤ s'.methodDefs.length) (global : (s'.image i).types ≠ [])
    (tops : ∀ t ∈ (s'.image i).types, t ∈ (s.image i).types ∨ t.index < s'.typeDefs.length)
    (nested : ∀ {t n}, n ∈ (s'.typeDef t).nestedTypes →
      n ∈ (s.typeDef t).nestedTypes ∨ n.index < s'.typeDefs.length)
    (fields : ∀ {t f}, f ∈ (s'.typeDef t).fields →
      f ∈ (s.typeDef t).fields ∨ f.index < s'.fieldDefs.length)
    (methods : ∀ {t f}, f ∈ (s'.typeDef t).methods →
      f ∈ (s.typeDef t).methods ∨ f.index < s'.methodDefs.length) : s'.Peopled i where
  global := global
  tops t hmem := (tops t hmem).elim (fun h' => Nat.lt_of_lt_of_le (h.tops t h') ht) id
  nested hmem := (nested hmem).elim (fun h' => Nat.lt_of_lt_of_le (h.nested h') ht) id
  fields hmem := (fields hmem).elim (fun h' => Nat.lt_of_lt_of_le (h.fields h') hf) id
  methods hmem := (methods hmem).elim (fun h' => Nat.lt_of_lt_of_le (h.methods h') hm) id

theorem enrols (h : s.Peopled i) (he : s.Enrols i s') : s'.Peopled i := by
  refine h.grow he.typesLe he.fieldsLe he.methodsLe ?_ (fun t ht => (he.tops.1 ht).imp_right
    fun ht => ht.2.1.1) (fun hn => (he.nestedIn.1 hn).imp_right fun hn => type_lt hn.2)
    (fun hf => (he.fieldsIn.1 hf).imp_right fun hf => field_lt hf.2)
    fun hm => (he.methodsIn.1 hm).imp_right fun hm => method_lt hm.2
  obtain ⟨t, ht⟩ := List.exists_mem_of_ne_nil _ h.global
  exact List.ne_nil_of_mem (he.tops.2 (.inl ht))

theorem createType (h : s.Peopled i) (j : ImageId) (ns name : Bytes) :
    (s.createType j ns name).2.Peopled i := by
  have hd : (s.createType j ns name).2.typeDefs = s.typeDefs ++ [{ image := j, ns, name }] := rfl
  have length : (s.createType j ns name).2.typeDefs.length = s.typeDefs.length + 1 := by
    rw [hd, List.length_append]
    rfl
  have lists := lists_append hd rfl rfl rfl
  have types := image_modifyImage_or (s.addTypeDef j ns name).2 j
    (fun m => { m with types := m.types ++ [⟨s.typeDefs.length⟩] }) i
  change (s.createType j ns name).2.image i = s.image i ∨
    i = j ∧ (s.createType j ns name).2.image i =
      { s.image i with types := (s.image i).types ++ [⟨s.typeDefs.length⟩] } at types
  refine h.grow (length ▸ Nat.le_succ _) (Nat.le_refl _) (Nat.le_refl _) ?_ (fun t hmem => ?_)
    (fun {t n} hmem => .inl ((lists t).1 ▸ hmem)) (fun {t f} hmem => .inl ((lists t).2.1 ▸ hmem))
    fun {t f} hmem => .inl ((lists t).2.2 ▸ hmem)
  · rcases types with heq | ⟨-, heq⟩ <;> rw [heq]
    · exact h.global
    · exact List.append_ne_nil_of_left_ne_nil h.global _
  · rcases types with heq | ⟨-, heq⟩ <;> rw [heq] at hmem
    · exact .inl hmem
    · refine (List.mem_append.1 hmem).imp_right fun hmem => ?_
      rw [List.mem_singleton.1 hmem, length]
      exact Nat.lt_succ_self _

theorem createNestedType (h : s.Peopled i) (j : ImageId) (ns name : Bytes) (o : TypeId) :
    (s.createNestedType j ns name o).2.Peopled i := by
  let s₁ : Store := { s with
    typeDefs := s.typeDefs ++ [{ image := j, ns, name, declaring := some o }] }
  have lists := @lists_append s s₁ _ rfl rfl rfl rfl
  have length := length_createNestedType (s := s) (i := j) (o := o) ns name
  have types := s₁.typeDef_modifyType_or o
    fun d => { d with nestedTypes := d.nestedTypes ++ [⟨s.typeDefs.length⟩] }
  change ∀ u, (s.createNestedType j ns name o).2.typeDef u = s₁.typeDef u ∨ u = o ∧
    (s.createNestedType j ns name o).2.typeDef u = { s₁.typeDef u with
      nestedTypes := (s₁.typeDef u).nestedTypes ++ [⟨s.typeDefs.length⟩] } at types
  refine h.grow (length ▸ Nat.le_succ _) (Nat.le_refl _) (Nat.le_refl _) h.global
    (fun t => .inl) (fun {t n} hmem => ?_) (fun {t f} hmem => .inl ?_) fun {t f} hmem => .inl ?_
  · rw [← (lists t).1]
    rcases types t with heq | ⟨-, heq⟩ <;> rw [heq] at hmem
    · exact .inl hmem
    · refine (List.mem_append.1 hmem).imp_right fun hmem => ?_
      rw [List.mem_singleton.1 hmem, length]
      exact Nat.lt_succ_self _
  · rw [← (lists t).2.1]
    rcases types t with heq | ⟨-, heq⟩ <;> rw [heq] at hmem <;> exact hmem
  · rw [← (lists t).2.2]
    rcases types t with heq | ⟨-, heq⟩ <;> rw [heq] at hmem <;> exact hmem

theorem createField (h : s.Peopled i) (t : TypeId) (d : FieldDef) :
    (s.createField t d).2.Peopled i := by
  have length : (s.createField t d).2.fieldDefs.length = s.fieldDefs.length + 1 :=
    List.length_append
  have types := s.typeDef_modifyType_or t
    fun d => { d with fields := d.fields ++ [⟨s.fieldDefs.length⟩] }
  change ∀ u, (s.createField t d).2.typeDef u = s.typeDef u ∨ u = t ∧
    (s.createField t d).2.typeDef u = { s.typeDef u with
      fields := (s.typeDef u).fields ++ [⟨s.fieldDefs.length⟩] } at types
  refine h.grow (length_modifyType t _ ▸ Nat.le_refl _) (length ▸ Nat.le_succ _) (Nat.le_refl _)
    h.global (fun t => .inl) (fun {u n} hmem => .inl ?_) (fun {u f} hmem => ?_)
    fun {u f} hmem => .inl ?_
  · rcases types u with heq | ⟨-, heq⟩ <;> rw [heq] at hmem <;> exact hmem
  · rcases types u with heq | ⟨-, heq⟩ <;> rw [heq] at hmem
    · exact .inl hmem
    · refine (List.mem_append.1 hmem).imp_right fun hmem => ?_
      rw [List.mem_singleton.1 hmem, length]
      exact Nat.lt_succ_self _
  · rcases types u with heq | ⟨-, heq⟩ <;> rw [heq] at hmem <;> exact hmem

theorem createMethod (h : s.Peopled i) (t : TypeId) (d : MethodDef) :
    (s.createMethod t d).2.Peopled i := by
  have length : (s.createMethod t d).2.methodDefs.length = s.methodDefs.length + 1 :=
    List.length_append
  have types := s.typeDef_modifyType_or t
    fun d => { d with methods := d.methods ++ [⟨s.methodDefs.length⟩] }
  change ∀ u, (s.createMethod t d).2.typeDef u = s.typeDef u ∨ u = t ∧
    (s.createMethod t d).2.typeDef u = { s.typeDef u with
      methods := (s.typeDef u).methods ++ [⟨s.methodDefs.length⟩] } at types
  refine h.grow (length_modifyType t _ ▸ Nat.le_refl _) (Nat.le_refl _) (length ▸ Nat.le_succ _)
    h.global (fun t => .inl) (fun {u n} hmem => .inl ?_) (fun {u f} hmem => .inl ?_)
    fun {u f} hmem => ?_
  · rcases types u with heq | ⟨-, heq⟩ <;> rw [heq] at hmem <;> exact hmem
  · rcases types u with heq | ⟨-, heq⟩ <;> rw [heq] at hmem <;> exact hmem
  · rcases types u with heq | ⟨-, heq⟩ <;> rw [heq] at hmem
    · exact .inl hmem
    · refine (List.mem_append.1 hmem).imp_right fun hmem => ?_
      rw [List.mem_singleton.1 hmem, length]
      exact Nat.lt_succ_self _

end Peopled

/-- What is made is there, and gets into no list before. -/
theorem making_peopled (i : ImageId) :
    Making fun w w' : WriteState => w.store.Peopled i → w'.store.Peopled i where
  trans h h' hs := h' (h hs)
  rows {w s} hs h := by
    have same : ∀ t, s.typeDef t = w.store.typeDef t := fun t => by rw [typeDef, hs.typeDefs, typeDef]
    refine h.grow (hs.typeDefs ▸ Nat.le_refl _) (hs.fieldDefs ▸ Nat.le_refl _)
      (hs.methodDefs ▸ Nat.le_refl _) (hs.types i ▸ h.global)
      (fun t hmem => .inl (hs.types i ▸ hmem)) ?_ ?_ ?_
    all_goals
      intro t n hmem
      exact .inl (same t ▸ hmem)
  addType _ j ns name h := h.createType j ns name
  addNestedType _ j ns name o h := h.createNestedType j ns name o
  addField _ t d h := h.createField t d
  addMethod _ t d h := h.createMethod t d
  note _ _ _ h := h
  noteType _ _ _ h := h
  noteField _ _ _ h := h
  noteMethod _ _ _ h := h

end Live.Store

/-! ### What is found -/

namespace WriteState

variable {w w' : WriteState} {c : Catalog} {r : Row}

/-- What is listed, remembered or answered is there, and no type is nested in itself. -/
structure Sound (w : WriteState) : Prop where
  peopled : w.store.Peopled w.writer.image
  tiered : w.store.Tiered
  types : ∀ {r}, w.RemembersType r → w.store.There r
  fields : ∀ {r}, w.RemembersField r → w.store.There r
  methods : ∀ {r}, w.RemembersMethod r → w.store.There r
  answers : ∀ {answer}, w.writer.hooks.type = some answer → ∀ a id, w.store.There (answer a id)

/-- Nothing has been made but rows that are no definitions, and no entity has been remembered. -/
structure Aside (w w' : WriteState) : Prop where
  rows : w.store.OnlyRows w'.store
  writer : ∃ as qs, w'.writer = { w.writer with assemblies := as, questions := qs }

namespace Aside

theorem refl (w : WriteState) : w.Aside w := ⟨.refl w.store, _, _, rfl⟩

theorem trans {w'' : WriteState} (h : w.Aside w') (h' : w'.Aside w'') : w.Aside w'' where
  rows := h.rows.trans h'.rows
  writer := by
    obtain ⟨as, qs, hw⟩ := h.writer
    obtain ⟨as', qs', hw'⟩ := h'.writer
    exact ⟨as', qs', by rw [hw', hw]⟩

theorem making {R : WriteState → WriteState → Prop} (m : Making R) (h : w.Aside w') : R w w' := by
  obtain ⟨as, qs, hw⟩ := h.writer
  have := m.trans (m.rows h.rows) (m.note _ as qs)
  obtain ⟨store, writer⟩ := w'
  obtain rfl : writer = _ := hw
  exact this

end Aside

theorem Sound.aside (h : w.Sound) (ha : w.Aside w') : w'.Sound := by
  have hn := ha.making Store.making_noLess
  obtain ⟨as, qs, hw⟩ := ha.writer
  refine ⟨?_, h.tiered.of_declaring hn.types fun t => ?_, fun hr => ?_, fun hr => ?_, fun hr => ?_,
    fun hr => ?_⟩
  · rw [hw]
    exact ha.making (Store.making_peopled _) h.peopled
  · rw [Store.typeDef, ha.rows.typeDefs, Store.typeDef]
  · rw [RemembersType, hw] at hr
    exact (h.types hr).more hn
  · rw [RemembersField, hw] at hr
    exact (h.fields hr).more hn
  · rw [RemembersMethod, hw] at hr
    exact (h.methods hr).more hn
  · rw [hw] at hr
    exact fun a id => (h.answers hr a id).more hn

theorem aside_askForAssembly {name : Bytes} (h : Gives (Writing.askForAssembly name) w r w') :
    w.Aside w' := by
  rw [Writing.askForAssembly, gives_bind_writer] at h
  split at h
  · obtain ⟨-, rfl⟩ := gives_pure.1 h
    exact .refl _
  · rw [gives_bind_modifyWriter] at h
    obtain ⟨-, rfl⟩ := gives_pure.1 h
    exact ⟨.refl _, _, _, rfl⟩

theorem aside_assemblyRow {name : Bytes} (h : Gives (Writing.assemblyRow name) w r w') :
    w.Aside w' := by
  rw [Writing.assemblyRow] at h
  obtain ⟨-, h⟩ := gives_guard.1 h
  rw [gives_bind_writer] at h
  split at h
  · obtain ⟨-, rfl⟩ := gives_pure.1 h
    exact .refl _
  · obtain ⟨a, w₁, ha, h⟩ := gives_bind.1 h
    refine (aside_askForAssembly ha).trans ?_
    rw [gives_bind_store, gives_bind_writer] at h
    dsimp only at h
    split at h
    · rw [pure_bind, gives_bind_modifyWriter] at h
      obtain ⟨-, rfl⟩ := gives_pure.1 h
      exact ⟨.refl _, _, _, rfl⟩
    · rw [gives_bind_making, gives_bind_modifyWriter] at h
      obtain ⟨-, rfl⟩ := gives_pure.1 h
      exact ⟨.addRowTo w₁.store w₁.writer.image (.assemblyRef · (.ofText name)) fun _ => rfl, _, _, rfl⟩

theorem topDefinition_there {ns name : Bytes} (hp : w.store.Peopled w.writer.image)
    (ht : w.store.Tiered) (h : Gives (Writing.topDefinition ns name) w r w') :
    w'.store.There r ∧ w'.store.Tiered := by
  rw [Writing.topDefinition, gives_bind_store, gives_bind_writer] at h
  split at h
  · next t hfound =>
      obtain ⟨rfl, rfl⟩ := gives_pure.1 h
      exact ⟨hp.tops t (List.mem_of_find?_eq_some hfound), ht⟩
  · rw [gives_bind_making] at h
    obtain ⟨rfl, rfl⟩ := gives_pure.1 h
    refine ⟨?_, ht.createType ns name⟩
    change _ < (w.store.typeDefs ++ [_]).length
    exact List.length_append ▸ Nat.lt_succ_self _

theorem nestedDefinition_there {o : TypeId} {name : Bytes} {i : ImageId}
    (hp : w.store.Peopled i) (ht : w.store.Tiered) (ho : w.store.There (.typeDef o))
    (h : Gives (Writing.nestedDefinition o name) w r w') : w'.store.There r ∧ w'.store.Tiered := by
  rw [Writing.nestedDefinition_eq, gives_bind_store] at h
  split at h
  · next n hn =>
      obtain ⟨rfl, rfl⟩ := gives_pure.1 h
      exact ⟨hp.nested (List.mem_of_find?_eq_some hn), ht⟩
  · rw [gives_bind_making] at h
    obtain ⟨rfl, rfl⟩ := gives_pure.1 h
    refine ⟨?_, ht.createNestedType [] name ho⟩
    exact Nat.lt_of_lt_of_eq (Nat.lt_succ_self _) (Store.length_createNestedType [] name).symm

theorem referenceIn_there {scope : Row} {ns name : Bytes} (ht : w.store.Tiered)
    (h : Gives (Writing.referenceIn scope ns name) w r w') :
    w'.store.There r ∧ w'.store.Tiered := by
  rw [Writing.referenceIn, gives_bind_store, gives_bind_writer] at h
  split at h
  · next x hx =>
      obtain ⟨rfl, rfl⟩ := gives_pure.1 h
      have his := List.find?_some hx
      unfold Writing.isTypeReference at his
      split at his
      · exact ⟨trivial, ht⟩
      · cases his
  · obtain ⟨rfl, rfl⟩ := gives_making.1 (gives_createTypeRef h)
    exact ⟨trivial, ht.of_declaring (Nat.le_refl _) fun _ => rfl⟩

/-- A type that is found is there, and still no type is nested in itself. -/
def Finds (x : Writing Row) : Prop :=
  ∀ {w r w'}, w.Sound → Gives x w r w' → w'.store.There r ∧ w'.store.Tiered

namespace Finds

/-- A type may be found in one that is. -/
theorem inside {x : Writing Row} (hx : Finds x) (makes : ∀ {R}, Making R → Makes R x) (name : Bytes) :
    Finds (do Writing.rowInside (← x) name) := by
  intro w r w' hw h
  obtain ⟨outer, w₁, houter, h⟩ := gives_bind.1 h
  obtain ⟨there, tiered⟩ := hx hw houter
  obtain ⟨-, h⟩ := gives_bind_askable.1 h
  cases outer with
  | typeDef o =>
      have hp := (makes (Store.making_peopled _)).gives houter hw.peopled
      exact nestedDefinition_there hp tiered there h
  | typeRef => exact referenceIn_there tiered h
  | _ => exact absurd h gives_refuseWrite

theorem rememberType {x : Writing Row} (hx : Finds x) (id : TypeIdentity) :
    Finds (Writing.rememberType id x) := by
  intro w r w' hw h
  rw [Writing.rememberType, gives_bind_writer] at h
  split at h
  · next z hz =>
      obtain ⟨rfl, rfl⟩ := gives_pure.1 h
      obtain ⟨e, he, rfl⟩ := Memory.mem_of_find? hz
      exact ⟨hw.types ⟨e, he, rfl⟩, hw.tiered⟩
  · obtain ⟨r', w₁, hr, h⟩ := gives_bind.1 h
    rw [gives_bind_modifyWriter] at h
    obtain ⟨rfl, rfl⟩ := gives_pure.1 h
    have there := hx hw hr
    exact there

/-- The global type is there, and so is what the owner answers. -/
theorem resolution {id : TypeIdentity} {lookUp : Row → Writing Row} (hx : ∀ a, Finds (lookUp a)) :
    Finds (do
      if Writing.isGlobalType id then return .typeDef ((← Writing.store).globalType (← Writing.writer).image)
      let assembly ← match id.assembly with
        | none   => Pure.pure .null
        | some n => Writing.assemblyRow n
      let answer ← Writing.askForType assembly id
      if !answer.isNull then
        if assembly.isNull && answer.kind? != some .typeDef then
          Writing.refuse (.answeredBy id.name answer.kindName)
        return answer
      lookUp assembly) := by
  have asked : ∀ assembly, Finds (do
      let answer ← Writing.askForType assembly id
      if !answer.isNull then
        if assembly.isNull && answer.kind? != some .typeDef then
          Writing.refuse (.answeredBy id.name answer.kindName)
        return answer
      lookUp assembly) := by
    intro assembly w r w' hw h
    rw [Writing.askForType, bind_assoc, gives_bind_writer] at h
    split at h
    · rw [pure_bind] at h
      exact hx assembly hw h
    · next answer hanswer =>
        rw [bind_assoc, gives_bind_modifyWriter, pure_bind] at h
        have hw' : Sound { w with writer := { w.writer with
            questions := w.writer.questions ++ [.type assembly id] } } :=
          hw.aside ⟨.refl _, _, _, rfl⟩
        split at h
        · obtain ⟨-, h⟩ := gives_guard.1 h
          obtain ⟨rfl, rfl⟩ := gives_pure.1 h
          exact ⟨hw.answers hanswer _ _, hw.tiered⟩
        · exact hx assembly hw' h
  intro w r w' hw h
  split at h
  · rw [gives_bind_store, gives_bind_writer] at h
    obtain ⟨rfl, rfl⟩ := gives_pure.1 h
    exact ⟨hw.peopled.globalType, hw.tiered⟩
  · cases ha : id.assembly with
    | none =>
        rw [ha] at h
        exact asked _ hw h
    | some n =>
        rw [ha] at h
        obtain ⟨a, w₁, ha, h⟩ := gives_bind.1 h
        exact asked _ (hw.aside (aside_assemblyRow ha)) h

theorem typeRowIn (names : List Bytes) (id : TypeIdentity) : Finds (Writing.typeRowIn names id) := by
  induction names generalizing id with
  | nil =>
      rw [Writing.typeRowIn]
      refine rememberType (resolution fun a => ?_) id
      intro w r w' hw h
      change Gives (if a.isNull then Writing.topDefinition id.ns id.name
        else Writing.referenceIn a id.ns id.name) w r w' at h
      split at h
      · exact topDefinition_there hw.peopled hw.tiered h
      · exact referenceIn_there hw.tiered h
  | cons outer rest ih =>
      rw [Writing.typeRowIn]
      exact rememberType (resolution fun a => inside (ih _) (fun m => m.typeRowIn rest _) id.name) id

end Finds

namespace Sound

variable (hw : w.Sound)

include hw

theorem typeRow {id : TypeIdentity} (h : Gives (Writing.typeRow id) w r w') :
    w'.store.There r ∧ w'.store.Tiered := Finds.typeRowIn _ id hw h

theorem rowOfTree {t : SigTree} (h : Gives (Writing.rowOfTree c t) w r w') : w'.store.There r := by
  unfold Writing.rowOfTree at h
  split at h
  · obtain ⟨e, -, h⟩ := gives_bind_lookUp.1 h
    exact (hw.typeRow h).1
  · obtain ⟨sig, w₁, -, h⟩ := gives_bind.1 h
    obtain ⟨rfl, -⟩ := gives_making.1 h
    exact trivial
  · exact absurd h gives_refuseWrite

/-- A field that is found is there. -/
theorem fieldRow {id : MemberIdentity} (h : Gives (Writing.fieldRow c id) w r w') :
    w'.store.There r := by
  rw [Writing.fieldRow, gives_bind_writer] at h
  split at h
  · next z hz =>
      obtain ⟨rfl, rfl⟩ := gives_pure.1 h
      obtain ⟨e, he, rfl⟩ := Memory.mem_of_find? hz
      exact hw.fields ⟨e, he, rfl⟩
  · obtain ⟨r', w₁, hr, h⟩ := gives_bind.1 h
    rw [gives_bind_modifyWriter] at h
    obtain ⟨rfl, rfl⟩ := gives_pure.1 h
    rw [Writing.resolveField_eq] at hr
    obtain ⟨parent, w₂, hparent, hr⟩ := gives_bind.1 hr
    obtain ⟨sig, w₃, hsig, hr⟩ := gives_bind.1 hr
    obtain ⟨-, hr⟩ := gives_guard.1 hr
    obtain ⟨-, hr⟩ := gives_bind_askable.1 hr
    have peopled := Store.making_peopled w.writer.image
    have hp := (peopled.callSigOf c _).gives hsig ((peopled.rowOfTree c _).gives hparent hw.peopled)
    split at hr
    · rw [gives_bind_store] at hr
      split at hr
      · next f hf =>
          obtain ⟨rfl, rfl⟩ := gives_pure.1 hr
          exact hp.fields (Store.of_findField? hf).1
      · rw [gives_bind_making] at hr
        obtain ⟨rfl, rfl⟩ := gives_pure.1 hr
        change _ < (w₃.store.fieldDefs ++ [_]).length
        exact List.length_append ▸ Nat.lt_succ_self _
    · obtain ⟨rfl, -⟩ := gives_making.1 hr
      exact trivial

/-- A method that is found is there. -/
theorem methodRow {id : MemberIdentity} (h : Gives (Writing.methodRow c id) w r w') :
    w'.store.There r := by
  rw [Writing.methodRow, gives_bind_writer] at h
  split at h
  · next z hz =>
      obtain ⟨rfl, rfl⟩ := gives_pure.1 h
      obtain ⟨e, he, rfl⟩ := Memory.mem_of_find? hz
      exact hw.methods ⟨e, he, rfl⟩
  · obtain ⟨r', w₁, hr, h⟩ := gives_bind.1 h
    rw [gives_bind_modifyWriter] at h
    obtain ⟨rfl, rfl⟩ := gives_pure.1 h
    rw [Writing.resolveMethod_eq] at hr
    obtain ⟨parent, w₂, hparent, hr⟩ := gives_bind.1 hr
    obtain ⟨sig, w₃, hsig, hr⟩ := gives_bind.1 hr
    obtain ⟨-, hr⟩ := gives_guard.1 hr
    obtain ⟨-, hr⟩ := gives_bind_askable.1 hr
    have peopled := Store.making_peopled w.writer.image
    have hp := (peopled.callSigOf c _).gives hsig ((peopled.rowOfTree c _).gives hparent hw.peopled)
    split at hr
    · rw [gives_bind_store] at hr
      split at hr
      · next f hf =>
          obtain ⟨rfl, rfl⟩ := gives_pure.1 hr
          exact hp.methods (Store.of_findMethod? hf).1
      · rw [gives_bind_making] at hr
        obtain ⟨rfl, rfl⟩ := gives_pure.1 hr
        change _ < (w₃.store.methodDefs ++ [_]).length
        exact List.length_append ▸ Nat.lt_succ_self _
    · obtain ⟨rfl, -⟩ := gives_making.1 hr
      exact trivial

end Sound

end WriteState

/-! ### Writers that ask nothing -/

/-- The lists of an arranged store have what is there. -/
theorem Live.Store.Arranged.peopled {s : Store} {i : ImageId} (h : s.Arranged)
    (hi : i.index < s.images.length) : s.Peopled i where
  global := h.global hi
  tops _ ht := (h.tops ht).1
  nested := h.nested
  fields hf := field_lt (h.fields hf)
  methods hm := method_lt (h.methods hm)

/-- Writers that ask nothing are sound after any requests, granted or refused. -/
theorem Writers.sound {s : Store} (h : s.Sealed) (ha : s.Arranged) (ht : s.Tiered) (name : Bytes)
    (qs : List Call) (k : Nat) : (((start s name).afterAll qs).state k).Sound := by
  obtain ⟨hi, hready⟩ := ((ready_start h name).afterAll qs) k
  have himage := (h.housed_createImage name).image
  obtain ⟨-, peopled, tiered⟩ := invariant
    (P := fun s' => s'.Filed s.nextImage ∧ s'.Peopled s.nextImage ∧ s'.Tiered)
    (fun hi hready hw a => by
      have he := hi ▸ a.enrols hready.toSettled (hi ▸ hw.1)
      exact ⟨hw.1.enrols he, hw.2.1.enrols he, hw.2.2.enrols he⟩)
    h ⟨h.filed_createImage name, (ha.createImage name).peopled himage, ht.createImage name⟩ qs
  refine ⟨hi.symm ▸ peopled, tiered, fun hr => ?_, fun hr => ?_, fun hr => ?_, fun hanswer => ?_⟩
  · cases hready.types hr with
    | defined ho => exact ho.1
    | _ => trivial
  · cases hready.fields hr with
    | defined hd => exact Store.field_lt hd
    | _ => trivial
  · cases hready.methods hr with
    | defined hd => exact Store.method_lt hd
    | _ => trivial
  · rw [hready.hooks] at hanswer
    cases hanswer

end CilCatalog
