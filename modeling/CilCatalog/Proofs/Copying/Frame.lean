import CilCatalog.Proofs.Copying.Step

/-!
# What steps leave intact

What stands for an identity, and what has been copied, stays so along the steps of a writer.
-/

namespace CilCatalog

open Live

/-! ### Lists that start with others -/

section StartsWith

variable {α : Type} {R S : α → α → Prop} {as bs ds : List α}

theorem Copy.StartsWith.imp (h : StartsWith R as bs) (hRS : ∀ a b, R a b → S a b) :
    StartsWith S as bs := by
  obtain ⟨cs, es, rfl, hne, hR⟩ := h
  exact ⟨cs, es, rfl, hne, hR.imp hRS⟩

/-- Something new at the end is not among what the list starts with. -/
theorem Copy.StartsWith.append (h : StartsWith R as bs) (hds : ∀ d ∈ ds, ∀ a, ¬ R a d) :
    StartsWith R as (bs ++ ds) := by
  obtain ⟨cs, es, rfl, hne, hR⟩ := h
  refine ⟨cs, es ++ ds, by rw [List.append_assoc], fun d hd hc => ?_, hR⟩
  rcases List.mem_append.1 hd with hd | hd
  · exact hne d hd hc
  · obtain ⟨a, -, ha⟩ := forall₂_mem_right hR hc
    exact hds d hd a ha

/-- A list that is put in front of another, without its own in that. -/
theorem Copy.startsWith_reordered [DecidableEq α] (h : List.Forall₂ R as bs) (cs : List α) :
    StartsWith R as (Writing.reordered bs cs) := by
  refine ⟨bs, _, rfl, fun d hd hb => ?_, h⟩
  have hne := (List.mem_filter.1 hd).2
  exact of_decide_eq_true hne hb

end StartsWith

namespace Copy

variable {C : Copy} {σ σ' : Store} {w w' : WriteState}

/-! ### Rows that stand for something -/

theorem TypeStands.grow {id : TypeIdentity} {r : Row} (h : C.TypeStands σ id r)
    (he : σ.Extends σ') (ht : (σ.image C.image).typeRefs ⊆ (σ'.image C.image).typeRefs) :
    C.TypeStands σ' id r :=
  ⟨h.known, h.stands.extends he, fun hr => (h.inside hr).extends he, fun hr => ht (h.listed hr)⟩

theorem Renders.extends {id : MemberIdentity} {y : Store → Reading MemberIdentity}
    (h : C.Renders σ id y) (he : σ.Extends σ') : C.Renders σ' id y :=
  fun type sig hr => (h type sig hr).extends he

theorem Made.grow {lo lo' : Nat} {rs : List Row} (h : C.Made σ lo rs) (hlo : lo' ≤ lo)
    (ha : (σ.image C.image).assemblyRefs ⊆ (σ'.image C.image).assemblyRefs)
    (ht : (σ.image C.image).typeRefs ⊆ (σ'.image C.image).typeRefs)
    (hn : σ.nextRow ≤ σ'.nextRow) : C.Made σ' lo' rs := by
  intro r hr
  rcases h r hr with ht' | hm | ⟨n, t, rfl, hl, hu⟩
  · exact .inl ht'
  · refine .inr (.inl ?_)
    rcases List.mem_append.1 hm with hm | hm
    · exact List.mem_append_left _ (ha hm)
    · exact List.mem_append_right _ (ht hm)
  · exact .inr (.inr ⟨n, t, rfl, Nat.le_trans hlo hl, Nat.lt_of_lt_of_le hu hn⟩)

theorem FieldStands.grow {id : MemberIdentity} {r : Row} (h : C.FieldStands σ id r)
    (he : σ.Extends σ') (ha : (σ.image C.image).assemblyRefs ⊆ (σ'.image C.image).assemblyRefs)
    (ht : (σ.image C.image).typeRefs ⊆ (σ'.image C.image).typeRefs)
    (hn : σ.nextRow ≤ σ'.nextRow) : C.FieldStands σ' id r := by
  cases h with
  | defined f t hf hin hd hm h =>
      refine .defined f t (Nat.lt_of_lt_of_le hf he.fieldsLe) (hin.extends he)
        ((Store.fieldDeclaring_extends hf he).trans hd) ?_ (h.extends he)
      rw [Store.fieldSignature_extends hf he]
      exact hm.grow (Nat.le_refl _) ha ht hn
  | referred n sig parent hs hp h => exact .referred n sig parent hs hp (h.extends he)

theorem MethodStands.grow {id : MemberIdentity} {r : Row} (h : C.MethodStands σ id r)
    (he : σ.Extends σ') (ha : (σ.image C.image).assemblyRefs ⊆ (σ'.image C.image).assemblyRefs)
    (ht : (σ.image C.image).typeRefs ⊆ (σ'.image C.image).typeRefs)
    (hn : σ.nextRow ≤ σ'.nextRow) : C.MethodStands σ' id r := by
  cases h with
  | defined f t hf hin hd hm h =>
      refine .defined f t (Nat.lt_of_lt_of_le hf he.methodsLe) (hin.extends he)
        ((Store.methodDeclaring_extends hf he).trans hd) ?_ (h.extends he)
      rw [Store.methodSignature_extends hf he]
      exact hm.grow (Nat.le_refl _) ha ht hn
  | referred n sig parent hs hp h => exact .referred n sig parent hs hp (h.extends he)

theorem Made.append {lo : Nat} {rs rs' : List Row} (h : C.Made σ lo rs) (h' : C.Made σ lo rs') :
    C.Made σ lo (rs ++ rs') := by
  intro r hr
  rcases List.mem_append.1 hr with hr | hr
  · exact h r hr
  · exact h' r hr

/-! ### Stores with more in them -/

variable (C) in
/-- The copy has grown: heads stay, references stay in their tables, and what is new in a list says itself that it belongs there. -/
structure Grown (σ σ' : Store) : Prop where
  store : σ.Extends σ'
  images : σ'.images.length = σ.images.length
  layers : ∀ {t}, σ'.TypeIn C.base t → ¬ σ.TypeIn C.base t → (σ'.typeDef t).image = C.image ∧
    ∀ o, (σ'.typeDef t).declaring = some o → C.base ≤ o.index ∧ o.index < t.index
  tops : ∃ ts, (σ'.image C.image).types = (σ.image C.image).types ++ ts ∧
    ∀ t ∈ ts, σ'.TypeIn C.base t ∧ (σ'.typeDef t).declaring = none
  nested : ∀ {t n}, σ'.TypeIn C.base t → n ∈ (σ'.typeDef t).nestedTypes →
    σ.TypeIn C.base t ∧ n ∈ (σ.typeDef t).nestedTypes ∨
      σ'.TypeIn C.base n ∧ (σ'.typeDef n).declaring = some t
  fields : ∀ {t f}, σ'.TypeIn C.base t → f ∈ (σ'.typeDef t).fields →
    σ.TypeIn C.base t ∧ f ∈ (σ.typeDef t).fields ∨
      f.index < σ'.fieldDefs.length ∧ (σ'.fieldDef f).declaring = some t ∧
        C.Made σ' 0 (σ'.fieldDef f).signature.rows
  methods : ∀ {t f}, σ'.TypeIn C.base t → f ∈ (σ'.typeDef t).methods →
    σ.TypeIn C.base t ∧ f ∈ (σ.typeDef t).methods ∨
      f.index < σ'.methodDefs.length ∧ (σ'.methodDef f).declaring = some t ∧
        C.Made σ' 0 (σ'.methodDef f).signature.rows
  assemblyRefs : (σ.image C.image).assemblyRefs ⊆ (σ'.image C.image).assemblyRefs
  typeRefs : (σ.image C.image).typeRefs ⊆ (σ'.image C.image).typeRefs
  nextRow : σ.nextRow ≤ σ'.nextRow
  tables : C.Tables σ'

/-- A store in order that grows is in order. -/
theorem Ground.grow (hg : C.Ground σ) (h : C.Grown σ σ') : C.Ground σ' where
  image := by
    rw [h.images]
    exact hg.image
  layered t ht := by
    by_cases hold : σ.TypeIn C.base t
    · rw [Store.image_extends hold.2 h.store, Store.declaring_extends hold.2 h.store]
      exact hg.layered t hold
    · exact h.layers ht hold
  base := Nat.lt_of_lt_of_le hg.base h.store.typesLe
  global := by
    obtain ⟨ts, hts⟩ := hg.global
    obtain ⟨new, hnew, -⟩ := h.tops
    exact ⟨ts ++ new, by rw [hnew, hts, List.cons_append]⟩
  globalName := by
    have hb : (⟨C.base⟩ : TypeId).index < σ.typeDefs.length := hg.base
    rw [Store.typeName_extends hb h.store, Store.ns_extends hb h.store,
      Store.declaring_extends hb h.store]
    exact hg.globalName
  tops t ht := by
    obtain ⟨new, hnew, hnews⟩ := h.tops
    rw [hnew] at ht
    rcases List.mem_append.1 ht with ht | ht
    · obtain ⟨hin, hd⟩ := hg.tops t ht
      exact ⟨hin.extends h.store, (Store.declaring_extends hin.2 h.store).trans hd⟩
    · exact hnews t ht
  nested ht hn := by
    rcases h.nested ht hn with ⟨ht, hn⟩ | new
    · obtain ⟨hin, hd⟩ := hg.nested ht hn
      exact ⟨hin.extends h.store, (Store.declaring_extends hin.2 h.store).trans hd⟩
    · exact new
  fields ht hf := by
    rcases h.fields ht hf with ⟨ht, hf⟩ | new
    · obtain ⟨hlt, hd, hm⟩ := hg.fields ht hf
      refine ⟨Nat.lt_of_lt_of_le hlt h.store.fieldsLe,
        (Store.fieldDeclaring_extends hlt h.store).trans hd, ?_⟩
      rw [Store.fieldSignature_extends hlt h.store]
      exact hm.grow (Nat.le_refl _) h.assemblyRefs h.typeRefs h.nextRow
    · exact new
  methods ht hf := by
    rcases h.methods ht hf with ⟨ht, hf⟩ | new
    · obtain ⟨hlt, hd, hm⟩ := hg.methods ht hf
      refine ⟨Nat.lt_of_lt_of_le hlt h.store.methodsLe,
        (Store.methodDeclaring_extends hlt h.store).trans hd, ?_⟩
      rw [Store.methodSignature_extends hlt h.store]
      exact hm.grow (Nat.le_refl _) h.assemblyRefs h.typeRefs h.nextRow
    · exact new
  tables := h.tables

/-! ### What is remembered -/

/-- The memory is right for a store that has grown. -/
theorem Remembered.grow (h : C.Remembered w) (hg : C.Grown w.store σ') :
    C.Remembered { w with store := σ' } where
  normal := h.normal
  types hid hr := (h.types hid hr).grow hg.store hg.typeRefs
  assemblies hr := by
    obtain ⟨n, a, rfl, hm, hl⟩ := h.assemblies hr
    exact ⟨n, a, rfl, hg.assemblyRefs hm, hl⟩
  fields hr := (h.fields hr).imp id fun hs =>
    hs.grow hg.store hg.assemblyRefs hg.typeRefs hg.nextRow
  methods hr := (h.methods hr).imp id fun hs =>
    hs.grow hg.store hg.assemblyRefs hg.typeRefs hg.nextRow

/-- Where only the store grows and contents stay, nothing is defined. -/
theorem Grown.refers (hg : C.Grown w.store σ') (hi : w.writer.image = C.image)
    (types : ∀ t : TypeId, t.index < w.store.typeDefs.length → TypeKept w.store σ' t)
    (fields : ∀ f : FieldId, f.index < w.store.fieldDefs.length →
      σ'.fieldDef f = w.store.fieldDef f)
    (methods : ∀ f : MethodId, f.index < w.store.methodDefs.length →
      σ'.methodDef f = w.store.methodDef f) : w.Refers { w with store := σ' } where
  store := hg.store
  kept := types
  fieldDefs := fields
  methodDefs := methods
  types _ hr := hr
  fields hr := hr
  methods hr := hr
  typesPlain _ hr _ := hr
  fieldsPlain hr _ := hr
  methodsPlain hr := .inl hr
  image := rfl
  assemblyRefs := hi ▸ hg.assemblyRefs
  typeRefs := hi ▸ hg.typeRefs
  nextRow := hg.nextRow

theorem Remembered.typeIn (h : C.Remembered w) {level : Level} {t n : TypeId}
    (ht : C.TypeWritten w level t n) : w.store.TypeIn C.base n := by
  obtain ⟨r, hr, hrow, -⟩ := ht
  exact (h.types (definitionIdentity_normal _ t) hr).inside hrow

theorem Remembered.field_lt (h : C.Remembered w) {id : MemberIdentity} {r : Written} {f : FieldId}
    (hr : w.writer.fields.find? id = some r) (hrow : r.row = .fieldDef f) :
    f.index < w.store.fieldDefs.length := by
  have hs := (h.fields hr).2
  rw [hrow] at hs
  cases hs with
  | defined _ _ hf => exact hf

theorem Remembered.method_lt (h : C.Remembered w) {id : MemberIdentity} {r : Written}
    {f : MethodId} (hr : w.writer.methods.find? id = some r) (hrow : r.row = .methodDef f) :
    f.index < w.store.methodDefs.length := by
  have hs := (h.methods hr).2
  rw [hrow] at hs
  cases hs with
  | defined _ _ hf => exact hf

/-! ### What has been copied -/

theorem TypeWritten.keeps {level : Level} {t n : TypeId} (h : C.TypeWritten w level t n)
    (hs : w.Keeps w') : C.TypeWritten w' level t n := by
  obtain ⟨r, hr, hrow, hl⟩ := h
  obtain ⟨r', hr', hrow', hl'⟩ := hs.types (definitionIdentity_normal _ t) hr
  exact ⟨r', hr', hrow'.trans hrow, Level.le_trans hl hl'⟩

theorem FieldWritten.keeps {f g : FieldId} (h : C.FieldWritten w f g) (hs : w.Keeps w') :
    C.FieldWritten w' f g := by
  obtain ⟨id, r, hid, hr, hrow, hl⟩ := h
  obtain ⟨r', hr', hrow', hl'⟩ := hs.fields hr
  exact ⟨id, r', hid, hr', hrow'.trans hrow, Level.le_trans hl hl'⟩

theorem MethodWritten.keeps {f g : MethodId} (h : C.MethodWritten w f g) (hs : w.Keeps w') :
    C.MethodWritten w' f g := by
  obtain ⟨id, r, hid, hr, hrow, hl⟩ := h
  obtain ⟨r', hr', hrow', hl'⟩ := hs.methods hr
  exact ⟨id, r', hid, hr', hrow'.trans hrow, Level.le_trans hl hl'⟩

/-! Lists that have been copied stay so while they are what they are, and while nothing but new members is put behind. -/

section Children

variable {t n : TypeId}

theorem NestedCopied.keeps (h : C.NestedCopied w t n) (hs : w.Keeps w')
    (heq : (w'.store.typeDef n).nestedTypes = (w.store.typeDef n).nestedTypes) :
    C.NestedCopied w' t n := by
  rw [NestedCopied, heq]
  exact h.imp fun _ _ h => h.keeps hs

theorem FieldsCopied.keeps (h : C.FieldsCopied w t n) (hs : w.Keeps w')
    (heq : (w'.store.typeDef n).fields = (w.store.typeDef n).fields) : C.FieldsCopied w' t n := by
  rw [FieldsCopied, heq]
  exact h.imp fun _ _ h => h.keeps hs

theorem MethodsCopied.keeps (h : C.MethodsCopied w t n) (hs : w.Keeps w')
    (heq : (w'.store.typeDef n).methods = (w.store.typeDef n).methods) : C.MethodsCopied w' t n := by
  rw [MethodsCopied, heq]
  exact h.imp fun _ _ h => h.keeps hs

theorem PropertiesCopied.keeps (h : C.PropertiesCopied w t n) (hs : w.store.Extends w'.store)
    (heq : (w'.store.typeDef n).properties = (w.store.typeDef n).properties) :
    C.PropertiesCopied w' t n := by
  rw [PropertiesCopied, heq]
  exact h.imp fun _ _ h => h.extends hs

theorem EventsCopied.keeps (h : C.EventsCopied w t n) (hs : w.store.Extends w'.store)
    (heq : (w'.store.typeDef n).events = (w.store.typeDef n).events) : C.EventsCopied w' t n := by
  rw [EventsCopied, heq]
  exact h.imp fun _ _ h => h.extends hs

theorem ChildrenCopied.keeps (h : C.ChildrenCopied w t n) (hs : w.Keeps w')
    (heq : w'.store.typeDef n = w.store.typeDef n) : C.ChildrenCopied w' t n :=
  ⟨h.nested.keeps hs (by rw [heq]), h.fields.keeps hs (by rw [heq]), h.methods.keeps hs (by rw [heq]),
    h.properties.keeps hs.store (by rw [heq]), h.events.keeps hs.store (by rw [heq])⟩

theorem NestedCopied.step (h : C.NestedCopied w t n) (hr : C.Remembered w)
    (hn : n.index < w.store.typeDefs.length) (hs : w.Step w') : C.NestedCopied w' t n := by
  obtain ⟨ns, fs, ms, heq, hns, -⟩ := hs.kept n hn
  rw [NestedCopied, heq]
  refine (h.append fun d hd a ha => ?_).imp fun _ _ h => h.keeps hs.keeps
  exact absurd (hr.typeIn ha).2 (Nat.not_lt.2 (hns d hd))

theorem FieldsCopied.step (h : C.FieldsCopied w t n) (hr : C.Remembered w)
    (hn : n.index < w.store.typeDefs.length) (hs : w.Step w') : C.FieldsCopied w' t n := by
  obtain ⟨ns, fs, ms, heq, -, hfs, -⟩ := hs.kept n hn
  rw [FieldsCopied, heq]
  refine (h.append fun d hd a ha => ?_).imp fun _ _ h => h.keeps hs.keeps
  obtain ⟨id, r, -, hf, hrow, -⟩ := ha
  exact absurd (hr.field_lt hf hrow) (Nat.not_lt.2 (hfs d hd))

theorem MethodsCopied.step (h : C.MethodsCopied w t n) (hr : C.Remembered w)
    (hn : n.index < w.store.typeDefs.length) (hs : w.Step w') : C.MethodsCopied w' t n := by
  obtain ⟨ns, fs, ms, heq, -, -, hms⟩ := hs.kept n hn
  rw [MethodsCopied, heq]
  refine (h.append fun d hd a ha => ?_).imp fun _ _ h => h.keeps hs.keeps
  obtain ⟨id, r, -, hf, hrow, -⟩ := ha
  exact absurd (hr.method_lt hf hrow) (Nat.not_lt.2 (hms d hd))

theorem PropertiesCopied.step (h : C.PropertiesCopied w t n)
    (hn : n.index < w.store.typeDefs.length) (hs : w.Step w') : C.PropertiesCopied w' t n := by
  obtain ⟨ns, fs, ms, heq, -⟩ := hs.kept n hn
  exact h.keeps hs.store (by rw [heq])

theorem EventsCopied.step (h : C.EventsCopied w t n) (hn : n.index < w.store.typeDefs.length)
    (hs : w.Step w') : C.EventsCopied w' t n := by
  obtain ⟨ns, fs, ms, heq, -⟩ := hs.kept n hn
  exact h.keeps hs.store (by rw [heq])

theorem ChildrenCopied.step (h : C.ChildrenCopied w t n) (hr : C.Remembered w)
    (hn : n.index < w.store.typeDefs.length) (hs : w.Step w') : C.ChildrenCopied w' t n :=
  ⟨h.nested.step hr hn hs, h.fields.step hr hn hs, h.methods.step hr hn hs, h.properties.step hn hs,
    h.events.step hn hs⟩

end Children

/-- The data of a type is read from its contents. -/
theorem typeData_kept {t : TypeId} (h : TypeKept σ σ' t) (s : Store) :
    Reading.typeData s (σ'.typeDef t) = Reading.typeData s (σ.typeDef t) := by
  obtain ⟨ns, fs, ms, heq, -⟩ := h
  rw [heq]
  rfl

/-- Where nothing is defined, what has been copied stays so. -/
theorem Copied.refers (h : C.Copied w) (hr : C.Remembered w) (hs : w.Refers w') : C.Copied w' where
  types {t n} hi ht := by
    obtain ⟨r, hf, hrow, hl⟩ := ht
    have ht : C.TypeWritten w .definition t n :=
      ⟨r, hs.typesPlain (definitionIdentity_normal _ t) hf hl, hrow, hl⟩
    intro σ' he
    dsimp only
    rw [typeData_kept (hs.kept n (hr.typeIn ht).2)]
    exact h.types hi ht σ' (hs.store.trans he)
  children {t n} hi ht := by
    obtain ⟨r, hf, hrow, hl⟩ := ht
    have ht : C.TypeWritten w .withChildren t n :=
      ⟨r, hs.typesPlain (definitionIdentity_normal _ t) hf (Level.le_trans (by decide) hl), hrow, hl⟩
    exact (h.children hi ht).step hr (hr.typeIn ht).2 hs.step
  fields {id r g k d} hf hrow hl hk f hh hd := by
    have hf := hs.fieldsPlain hf hl
    rw [hs.fieldDefs g (hr.field_lt hf hrow)]
    exact (h.fields hf hrow hl hk f hh hd).extends hs.store
  methods {id r g k d} hf hrow hl hk f hh hd := by
    have hf := (hs.methodsPlain hf).resolve_right fun h => h.1 hl
    rw [hs.methodDefs g (hr.method_lt hf hrow)]
    exact (h.methods hf hrow hl hk f hh hd).extends hs.store
  bodies {id r g k d} hf hrow hk hd := by
    rcases hs.methodsPlain hf with hf | ⟨-, hb⟩
    · rw [hs.methodDefs g (hr.method_lt hf hrow)]
      exact h.bodies hf hrow hk hd
    · exact (hb g hrow).2

/-- Everything is as it should be in a store that has grown, as far as the lists and what has been copied are. -/
theorem Faithful.grow {p p' : Row} (hw : C.Faithful p w) (hg : C.Grown w.store σ')
    (hl : C.Listed p' { w with store := σ' }) (hc : C.Copied { w with store := σ' }) :
    C.Faithful p' { w with store := σ' } :=
  ⟨hw.image, hw.hooks, hw.ground.grow hg, hl, hw.remembered.grow hg, hc⟩

end Copy

end CilCatalog
