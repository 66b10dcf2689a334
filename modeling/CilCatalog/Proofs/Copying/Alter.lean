import CilCatalog.Proofs.Copying.Member

/-!
# Changing what a definition says

A field, method or type of the copy that has not been defined yet may be changed, and is marked as defined when it reads as the original.
-/

namespace CilCatalog

open Live

namespace Copy

variable {C : Copy} {p : Row} {w w' : WriteState} {σ' : Store} {u : Unit}

/-! ### Stores with other contents -/

/-- The definitions have the same heads, but may say something else.  Whatever is in their lists has been there, or is remembered and says itself where it belongs. -/
structure Alters (w : WriteState) (σ' : Store) : Prop where
  typesLength : σ'.typeDefs.length = w.store.typeDefs.length
  fieldsLength : σ'.fieldDefs.length = w.store.fieldDefs.length
  methodsLength : σ'.methodDefs.length = w.store.methodDefs.length
  types : ∀ t, (σ'.typeDef t).head = (w.store.typeDef t).head
  nested : ∀ {t n}, n ∈ (σ'.typeDef t).nestedTypes → n ∈ (w.store.typeDef t).nestedTypes ∨
    TypeListed w n ∧ (w.store.typeDef n).declaring = some t
  fields : ∀ {t f}, f ∈ (σ'.typeDef t).fields → f ∈ (w.store.typeDef t).fields ∨
    FieldListed w f ∧ (w.store.fieldDef f).declaring = some t
  methods : ∀ {t f}, f ∈ (σ'.typeDef t).methods → f ∈ (w.store.typeDef t).methods ∨
    MethodListed w f ∧ (w.store.methodDef f).declaring = some t
  fieldHeads : ∀ f, (σ'.fieldDef f).head = (w.store.fieldDef f).head
  methodHeads : ∀ f, (σ'.methodDef f).head = (w.store.methodDef f).head
  images : σ'.images = w.store.images
  nextRow : σ'.nextRow = w.store.nextRow

namespace Alters

variable (h : Alters w σ')

include h

theorem image (i : ImageId) : σ'.image i = w.store.image i := by
  rw [Store.image, Store.image, h.images]

theorem typeIn {b : Nat} {t : TypeId} : σ'.TypeIn b t ↔ w.store.TypeIn b t := by
  rw [Store.TypeIn, Store.TypeIn, h.typesLength]

theorem store : w.store.Extends σ' :=
  ⟨Nat.le_of_eq h.typesLength.symm, Nat.le_of_eq h.fieldsLength.symm,
    Nat.le_of_eq h.methodsLength.symm, fun t _ => h.types t, fun f _ => h.fieldHeads f,
    fun f _ => h.methodHeads f⟩

theorem assemblyRefs : (w.store.image C.image).assemblyRefs ⊆ (σ'.image C.image).assemblyRefs := by
  rw [h.image]
  exact List.Subset.refl _

theorem typeRefs : (w.store.image C.image).typeRefs ⊆ (σ'.image C.image).typeRefs := by
  rw [h.image]
  exact List.Subset.refl _

theorem grown (hr : C.Remembered w) (hg : C.Ground w.store) : C.Grown w.store σ' where
  store := h.store
  images := by rw [h.images]
  layers ht hnew := absurd (h.typeIn.1 ht) hnew
  tops := ⟨[], by rw [h.image, List.append_nil], nofun⟩
  nested ht hn := by
    rcases h.nested hn with hn | ⟨⟨id, r, hid, hf, hrow⟩, hd⟩
    · exact .inl ⟨h.typeIn.1 ht, hn⟩
    · have hin := (hr.types hid hf).inside hrow
      exact .inr ⟨h.typeIn.2 hin, (Store.declaring_extends hin.2 h.store).trans hd⟩
  fields {t f} ht hmem := by
    rcases h.fields hmem with hmem | ⟨⟨id, r, hf, hrow⟩, hd⟩
    · exact .inl ⟨h.typeIn.1 ht, hmem⟩
    · have hs := (hr.fields hf).2.grow h.store h.assemblyRefs h.typeRefs
        (Nat.le_of_eq h.nextRow.symm)
      rw [hrow] at hs
      cases hs with
      | defined _ _ hlt _ _ hm =>
          exact .inr ⟨hlt, (congrArg (·.2.2) (h.fieldHeads f)).trans hd, hm⟩
  methods {t f} ht hmem := by
    rcases h.methods hmem with hmem | ⟨⟨id, r, hf, hrow⟩, hd⟩
    · exact .inl ⟨h.typeIn.1 ht, hmem⟩
    · have hs := (hr.methods hf).2.grow h.store h.assemblyRefs h.typeRefs
        (Nat.le_of_eq h.nextRow.symm)
      rw [hrow] at hs
      cases hs with
      | defined _ _ hlt _ _ hm =>
          exact .inr ⟨hlt, (congrArg (·.2.2) (h.methodHeads f)).trans hd, hm⟩
  assemblyRefs := h.assemblyRefs
  typeRefs := h.typeRefs
  nextRow := Nat.le_of_eq h.nextRow.symm
  tables := hg.tables.bump (by rw [h.image]) (by rw [h.image]) (Nat.le_of_eq h.nextRow.symm)

theorem keeps : w.Keeps { w with store := σ' } :=
  ⟨h.store, fun _ h => ⟨_, h, rfl, Level.le_refl _⟩, fun h => ⟨_, h, rfl, Level.le_refl _⟩,
    fun h => ⟨_, h, rfl, Level.le_refl _⟩⟩

/-- Where types stay as they are, it is a step. -/
theorem step (ht : σ'.typeDefs = w.store.typeDefs) : w.Step { w with store := σ' } :=
  ⟨h.store, fun t _ => .of_eq (by rw [Store.typeDef, Store.typeDef, ht]), fun _ h => h,
    fun h => ⟨_, h, rfl, Level.le_refl _⟩, fun h => ⟨_, h, rfl, Level.le_refl _⟩⟩

end Alters

/-- Everything is as it should be when the contents of definitions change, provided that what has been copied stays so. -/
theorem Faithful.alter (hw : C.Faithful p w) (h : Alters w σ')
    (hc : C.Copied { w with store := σ' }) : C.Faithful p { w with store := σ' } := by
  refine hw.grow (h.grown hw.remembered hw.ground) ⟨?_, ?_, ?_⟩ hc
  · intro t n ht hn
    rcases h.nested hn with hn | ⟨hlisted, -⟩
    · exact hw.listed.types (h.typeIn.1 ht) hn
    · exact .inr hlisted
  · intro t f ht hf
    rcases h.fields hf with hf | ⟨hlisted, -⟩
    · exact hw.listed.fields (h.typeIn.1 ht) hf
    · exact .inr hlisted
  · intro t f ht hf
    rcases h.methods hf with hf | ⟨hlisted, -⟩
    · exact hw.listed.methods (h.typeIn.1 ht) hf
    · exact .inr hlisted

/-! ### Rows of one identity -/

/-- A field of the copy is remembered under one identity. -/
theorem Remembered.field_unique (h : C.Remembered w) {id id' : MemberIdentity} {r r' : Written}
    {f : FieldId} (hr : w.writer.fields.find? id = some r) (hrow : r.row = .fieldDef f)
    (hr' : w.writer.fields.find? id' = some r') (hrow' : r'.row = .fieldDef f) : id = id' := by
  have reads : ∀ {id r}, w.writer.fields.find? id = some r → r.row = .fieldDef f →
      Gives (Reading.fieldIdentity w.store f) (C.reader.onto C.image) id (C.reader.onto C.image) := by
    intro id r hr hrow
    obtain ⟨⟨⟨c, hc, hread⟩, -⟩, hs⟩ := h.fields hr
    obtain ⟨type, sig, hfrom, -⟩ := hc.readFrom hread
    rw [hrow] at hs
    cases hs with
    | defined _ _ _ _ _ _ hren => exact hren.gives hfrom
  exact ((reads hr hrow).unique (reads hr' hrow')).1

/-- A method of the copy is remembered under one identity. -/
theorem Remembered.method_unique (h : C.Remembered w) {id id' : MemberIdentity} {r r' : Written}
    {f : MethodId} (hr : w.writer.methods.find? id = some r) (hrow : r.row = .methodDef f)
    (hr' : w.writer.methods.find? id' = some r') (hrow' : r'.row = .methodDef f) : id = id' := by
  have reads : ∀ {id r}, w.writer.methods.find? id = some r → r.row = .methodDef f →
      Gives (Reading.methodIdentity w.store f) (C.reader.onto C.image) id (C.reader.onto C.image) := by
    intro id r hr hrow
    obtain ⟨⟨⟨c, hc, hread⟩, -⟩, hs⟩ := h.methods hr
    obtain ⟨type, sig, hfrom, -⟩ := hc.readFrom hread
    rw [hrow] at hs
    cases hs with
    | defined _ _ _ _ _ _ hren => exact hren.gives hfrom
  exact ((reads hr hrow).unique (reads hr' hrow')).1

/-- A type of the copy is remembered under one identity. -/
theorem Remembered.type_unique (h : C.Remembered w) {id id' : TypeIdentity} {r r' : Written}
    {n : TypeId} (hid : Normal id) (hid' : Normal id') (hr : w.writer.types.find? id = some r)
    (hrow : r.row = .typeDef n) (hr' : w.writer.types.find? id' = some r')
    (hrow' : r'.row = .typeDef n) : id = id' := by
  have hs := (h.types hid hr).stands.names
  have hs' := (h.types hid' hr').stands.names
  rw [hrow] at hs
  rw [hrow'] at hs'
  exact hs.unique hs'

/-! ### Fields -/

section Field

variable {id : MemberIdentity} {r : Written} {f : FieldId} {F : FieldDef → FieldDef}

theorem alters_modifyField (hF : ∀ d, (F d).head = d.head) :
    Alters w (w.store.modifyField f F) := by
  refine ⟨rfl, Store.length_modifyField _ _, rfl, fun _ => rfl, .inl, .inl, .inl, fun g => ?_,
    fun _ => rfl, rfl, rfl⟩
  by_cases heq : g = f
  · subst heq
    by_cases hlt : g.index < w.store.fieldDefs.length
    · rw [Store.fieldDef_modifyField hlt, hF]
    · rw [Store.fieldDef_modifyField_of_le (Nat.not_lt.1 hlt)]
  · rw [Store.fieldDef_modifyField_of_ne heq]

/-- A field that is not defined yet may be changed. -/
theorem Faithful.alterField (hw : C.Faithful p w) (hr : w.writer.fields.find? id = some r)
    (hrow : r.row = .fieldDef f) (hl : ¬ .definition ≤ r.level)
    (h : Gives (Writing.modifyStore (·.modifyField f F)) w u w') (hF : ∀ d, (F d).head = d.head) :
    C.Faithful p w' ∧ w.Step w' ∧ w'.writer = w.writer ∧
      w'.store.fieldDef f = F (w.store.fieldDef f) := by
  obtain rfl := gives_modifyStore.1 h
  have halters := alters_modifyField (w := w) (f := f) hF
  refine ⟨hw.alter halters ⟨?_, ?_, ?_, ?_, ?_⟩, halters.step rfl, rfl,
    Store.fieldDef_modifyField (hw.remembered.field_lt hr hrow)⟩
  · exact fun hi ht => (hw.copied.types hi ht).extends halters.store
  · exact fun hi ht => (hw.copied.children hi ht).keeps halters.keeps rfl
  · intro id' r' g k d hr' hrow' hl' hk f' hh hd
    have hne : g ≠ f := by
      rintro rfl
      obtain rfl := hw.remembered.field_unique hr hrow hr' hrow'
      cases hr.symm.trans hr'
      exact hl hl'
    dsimp only
    rw [Store.fieldDef_modifyField_of_ne hne]
    exact (hw.copied.fields hr' hrow' hl' hk f' hh hd).extends halters.store
  · exact fun hr' hrow' hl' hk f' hh hd =>
      (hw.copied.methods hr' hrow' hl' hk f' hh hd).extends halters.store
  · exact hw.copied.bodies

/-- A field that is read as the original may be marked as defined. -/
theorem Faithful.levelField (hw : C.Faithful p w) (hr : w.writer.fields.find? id = some r)
    (hrow : r.row = .fieldDef f) (hl : r.level ≤ .definition)
    (h : ∀ {k d}, C.catalog.fields.get? k = some (.definition id d) →
      ∀ f₀, C.source.Has (C.source.store.fieldDef f₀).rows →
        Read C.source C.reader (Reading.fieldData C.source.store (C.source.store.fieldDef f₀)) d →
        C.Echo w.store (Reading.fieldData C.source.store (C.source.store.fieldDef f₀))
          (Reading.fieldData · (w.store.fieldDef f))) :
    let w' : WriteState := { w with
      writer := { w.writer with fields := w.writer.fields.atLevel id .definition } }
    C.Faithful p w' ∧ w.Step w' ∧ ∃ r', w'.writer.fields.find? id = some r' ∧ r'.row = .fieldDef f ∧
      .definition ≤ r'.level := by
  intro w'
  have hnormal : w.writer.fields.IsNormal := fun _ _ => trivial
  have before : ∀ {id' r'}, w'.writer.fields.find? id' = some r' →
      (id = id' ∧ r' = { r with level := .definition }) ∨
        (id ≠ id' ∧ w.writer.fields.find? id' = some r') :=
    Memory.of_find?_atLevel hnormal trivial trivial hr
  have after : ∀ {id' r'}, w.writer.fields.find? id' = some r' →
      ∃ r'', w'.writer.fields.find? id' = some r'' ∧ r''.row = r'.row ∧ r'.level ≤ r''.level :=
    Memory.find?_atLevel hnormal trivial trivial hr hl
  have step : w.Step w' :=
    ⟨.refl _, fun _ _ => .of_eq rfl, fun _ h => h, after, fun h => ⟨_, h, rfl, Level.le_refl _⟩⟩
  refine ⟨⟨hw.image, hw.hooks, hw.ground, ⟨hw.listed.types, fun ht hf => ?_, hw.listed.methods⟩,
    ⟨hw.remembered.normal, hw.remembered.types, hw.remembered.assemblies, fun hr' => ?_,
      hw.remembered.methods⟩,
    ⟨hw.copied.types, fun hi ht => (hw.copied.children hi ht).keeps step.keeps rfl, ?_,
      hw.copied.methods, hw.copied.bodies⟩⟩, step, ?_⟩
  · rcases hw.listed.fields ht hf with hp | ⟨id', r', hr', hrow'⟩
    · exact .inl hp
    · obtain ⟨r'', hr'', hsame, -⟩ := after hr'
      exact .inr ⟨id', r'', hr'', hsame.trans hrow'⟩
  · rcases before hr' with ⟨rfl, rfl⟩ | ⟨-, hr'⟩
    · obtain ⟨hisField, hs⟩ := hw.remembered.fields hr
      exact ⟨hisField, hs⟩
    · exact hw.remembered.fields hr'
  · intro id' r' g k d hr' hrow' hl' hk
    rcases before hr' with ⟨rfl, rfl⟩ | ⟨-, hr'⟩
    · obtain rfl : f = g := by
        cases hrow.symm.trans hrow'
        rfl
      exact h hk
    · exact hw.copied.fields hr' hrow' hl' hk
  · refine ⟨{ r with level := .definition }, ?_, hrow, Level.le_refl _⟩
    exact (Memory.find?_atLevel_self _).trans (by rw [hr]; rfl)

end Field

/-! ### Methods -/

section Method

variable {id : MemberIdentity} {r : Written} {f : MethodId} {F : MethodDef → MethodDef}

theorem alters_modifyMethod (hF : ∀ d, (F d).head = d.head) :
    Alters w (w.store.modifyMethod f F) := by
  refine ⟨rfl, rfl, Store.length_modifyMethod _ _, fun _ => rfl, .inl, .inl, .inl, fun _ => rfl,
    fun g => ?_, rfl, rfl⟩
  by_cases heq : g = f
  · subst heq
    by_cases hlt : g.index < w.store.methodDefs.length
    · rw [Store.methodDef_modifyMethod hlt, hF]
    · rw [Store.methodDef_modifyMethod_of_le (Nat.not_lt.1 hlt)]
  · rw [Store.methodDef_modifyMethod_of_ne heq]

/-- A method that is not defined yet may be changed, but gets no body that it does not have in the catalog. -/
theorem Faithful.alterMethod (hw : C.Faithful p w) (hr : w.writer.methods.find? id = some r)
    (hrow : r.row = .methodDef f) (hl : ¬ .definition ≤ r.level)
    (h : Gives (Writing.modifyStore (·.modifyMethod f F)) w u w') (hF : ∀ d, (F d).head = d.head)
    (hb : ∀ {k d}, C.catalog.methods.get? k = some (.definition id d) → d.body = none →
      ∀ l, l.body = none → (F l).body = none) :
    C.Faithful p w' ∧ w.Step w' ∧ w'.writer = w.writer ∧
      w'.store.methodDef f = F (w.store.methodDef f) := by
  obtain rfl := gives_modifyStore.1 h
  have halters := alters_modifyMethod (w := w) (f := f) hF
  have only : ∀ {id' r'}, w.writer.methods.find? id' = some r' → r'.row = .methodDef f →
      id' = id ∧ r' = r := by
    intro id' r' hr' hrow'
    obtain rfl := hw.remembered.method_unique hr hrow hr' hrow'
    cases hr.symm.trans hr'
    exact ⟨rfl, rfl⟩
  refine ⟨hw.alter halters ⟨?_, ?_, ?_, ?_, ?_⟩, halters.step rfl, rfl,
    Store.methodDef_modifyMethod (hw.remembered.method_lt hr hrow)⟩
  · exact fun hi ht => (hw.copied.types hi ht).extends halters.store
  · exact fun hi ht => (hw.copied.children hi ht).keeps halters.keeps rfl
  · exact fun hr' hrow' hl' hk f' hh hd =>
      (hw.copied.fields hr' hrow' hl' hk f' hh hd).extends halters.store
  · intro id' r' g k d hr' hrow' hl' hk f' hh hd
    have hne : g ≠ f := by
      rintro rfl
      obtain ⟨rfl, rfl⟩ := only hr' hrow'
      exact hl hl'
    dsimp only
    rw [Store.methodDef_modifyMethod_of_ne hne]
    exact (hw.copied.methods hr' hrow' hl' hk f' hh hd).extends halters.store
  · intro id' r' g k d hr' hrow' hk hd
    have hnone := hw.copied.bodies hr' hrow' hk hd
    dsimp only
    by_cases heq : g = f
    · subst heq
      obtain ⟨rfl, rfl⟩ := only hr' hrow'
      rw [Store.methodDef_modifyMethod (hw.remembered.method_lt hr' hrow')]
      exact hb hk hd _ hnone
    · rw [Store.methodDef_modifyMethod_of_ne heq]
      exact hnone

/-- A method that is read as the original may be marked as defined. -/
theorem Faithful.levelMethod (hw : C.Faithful p w) (hr : w.writer.methods.find? id = some r)
    (hrow : r.row = .methodDef f) (hl : r.level ≤ .definition)
    (h : ∀ {k d}, C.catalog.methods.get? k = some (.definition id d) →
      ∀ f₀, C.source.Has (C.source.store.methodDef f₀).rows →
        Read C.source C.reader (Reading.methodData C.source.store (C.source.store.methodDef f₀)) d →
        C.Echo w.store (Reading.methodData C.source.store (C.source.store.methodDef f₀))
          (Reading.methodData · (w.store.methodDef f))) :
    let w' : WriteState := { w with
      writer := { w.writer with methods := w.writer.methods.atLevel id .definition } }
    C.Faithful p w' ∧ w.Step w' ∧ ∃ r', w'.writer.methods.find? id = some r' ∧
      r'.row = .methodDef f ∧ .definition ≤ r'.level := by
  intro w'
  have hnormal : w.writer.methods.IsNormal := fun _ _ => trivial
  have before : ∀ {id' r'}, w'.writer.methods.find? id' = some r' →
      (id = id' ∧ r' = { r with level := .definition }) ∨
        (id ≠ id' ∧ w.writer.methods.find? id' = some r') :=
    Memory.of_find?_atLevel hnormal trivial trivial hr
  have after : ∀ {id' r'}, w.writer.methods.find? id' = some r' →
      ∃ r'', w'.writer.methods.find? id' = some r'' ∧ r''.row = r'.row ∧ r'.level ≤ r''.level :=
    Memory.find?_atLevel hnormal trivial trivial hr hl
  have step : w.Step w' :=
    ⟨.refl _, fun _ _ => .of_eq rfl, fun _ h => h, fun h => ⟨_, h, rfl, Level.le_refl _⟩, after⟩
  refine ⟨⟨hw.image, hw.hooks, hw.ground, ⟨hw.listed.types, hw.listed.fields, fun ht hf => ?_⟩,
    ⟨hw.remembered.normal, hw.remembered.types, hw.remembered.assemblies, hw.remembered.fields,
      fun hr' => ?_⟩,
    ⟨hw.copied.types, fun hi ht => (hw.copied.children hi ht).keeps step.keeps rfl,
      hw.copied.fields, ?_, ?_⟩⟩, step, ?_⟩
  · rcases hw.listed.methods ht hf with hp | ⟨id', r', hr', hrow'⟩
    · exact .inl hp
    · obtain ⟨r'', hr'', hsame, -⟩ := after hr'
      exact .inr ⟨id', r'', hr'', hsame.trans hrow'⟩
  · rcases before hr' with ⟨rfl, rfl⟩ | ⟨-, hr'⟩
    · obtain ⟨hisMethod, hs⟩ := hw.remembered.methods hr
      exact ⟨hisMethod, hs⟩
    · exact hw.remembered.methods hr'
  · intro id' r' g k d hr' hrow' hl' hk
    rcases before hr' with ⟨rfl, rfl⟩ | ⟨-, hr'⟩
    · obtain rfl : f = g := by
        cases hrow.symm.trans hrow'
        rfl
      exact h hk
    · exact hw.copied.methods hr' hrow' hl' hk
  · intro id' r' g k d hr' hrow'
    rcases before hr' with ⟨rfl, rfl⟩ | ⟨-, hr'⟩
    · exact hw.copied.bodies hr hrow'
    · exact hw.copied.bodies hr' hrow'
  · refine ⟨{ r with level := .definition }, ?_, hrow, Level.le_refl _⟩
    exact (Memory.find?_atLevel_self _).trans (by rw [hr]; rfl)

end Method

/-! ### Types -/

section Types

variable {t n : TypeId} {r : Written} {F : TypeDef → TypeDef}

theorem alters_modifyType (hn : n.index < w.store.typeDefs.length) (hF : ∀ d, (F d).head = d.head)
    (hnested : ∀ u ∈ (F (w.store.typeDef n)).nestedTypes, u ∈ (w.store.typeDef n).nestedTypes ∨
      TypeListed w u ∧ (w.store.typeDef u).declaring = some n)
    (hfields : ∀ f ∈ (F (w.store.typeDef n)).fields, f ∈ (w.store.typeDef n).fields ∨
      FieldListed w f ∧ (w.store.fieldDef f).declaring = some n)
    (hmethods : ∀ f ∈ (F (w.store.typeDef n)).methods, f ∈ (w.store.typeDef n).methods ∨
      MethodListed w f ∧ (w.store.methodDef f).declaring = some n) :
    Alters w (w.store.modifyType n F) := by
  have own := Store.typeDef_modifyType (f := F) hn
  have others : ∀ {u}, u ≠ n → (w.store.modifyType n F).typeDef u = w.store.typeDef u :=
    Store.typeDef_modifyType_of_ne
  refine ⟨Store.length_modifyType _ _, rfl, rfl, fun u => ?_, fun {u m} hm => ?_, fun {u f} hf => ?_,
    fun {u f} hf => ?_, fun _ => rfl, fun _ => rfl, rfl, rfl⟩
  · by_cases heq : u = n
    · rw [heq, own, hF]
    · rw [others heq]
  · by_cases heq : u = n
    · subst heq
      rw [own] at hm
      exact hnested m hm
    · rw [others heq] at hm
      exact .inl hm
  · by_cases heq : u = n
    · subst heq
      rw [own] at hf
      exact hfields f hf
    · rw [others heq] at hf
      exact .inl hf
  · by_cases heq : u = n
    · subst heq
      rw [own] at hf
      exact hmethods f hf
    · rw [others heq] at hf
      exact .inl hf

/-- A type whose children are not copied yet may be changed; once it is defined it must be read as before. -/
theorem Faithful.alterType (hw : C.Faithful p w)
    (hr : w.writer.types.find? (Reading.definitionIdentity C.source.store t) = some r)
    (hrow : r.row = .typeDef n) (hl : ¬ .withChildren ≤ r.level)
    (hg : Gives (Writing.modifyStore (·.modifyType n F)) w u w')
    (h : Alters w (w.store.modifyType n F))
    (hdata : .definition ≤ r.level → ∀ s, Reading.typeData s (F (w.store.typeDef n)) =
      Reading.typeData s (w.store.typeDef n)) :
    C.Faithful p w' ∧ w.Keeps w' ∧ w'.writer = w.writer ∧
      w'.store.typeDef n = F (w.store.typeDef n) := by
  obtain rfl := gives_modifyStore.1 hg
  have hid := definitionIdentity_normal C.source.store t
  have only : ∀ {level t'}, C.TypeWritten w level t' n → level ≤ r.level := by
    rintro level t' ⟨r', hr', hrow', hl'⟩
    have heq := hw.remembered.type_unique hid (definitionIdentity_normal _ t') hr hrow hr' hrow'
    rw [← heq] at hr'
    cases hr.symm.trans hr'
    exact hl'
  refine ⟨hw.alter h ⟨fun {t' n'} hi ht => ?_, fun {t' n'} hi ht => ?_, ?_, ?_, hw.copied.bodies⟩,
    h.keeps, rfl, Store.typeDef_modifyType ((hw.remembered.types hid hr).inside hrow).2⟩
  · have hold := hw.copied.types hi ht
    by_cases heq : n' = n
    · subst heq
      intro σ' he
      dsimp only
      rw [Store.typeDef_modifyType (hw.remembered.typeIn ht).2, hdata (only ht)]
      exact hold σ' (h.store.trans he)
    · dsimp only
      rw [Store.typeDef_modifyType_of_ne heq]
      exact hold.extends h.store
  · have hne : n' ≠ n := by
      rintro rfl
      exact hl (only ht)
    exact (hw.copied.children hi ht).keeps h.keeps (Store.typeDef_modifyType_of_ne hne)
  · exact fun hr' hrow' hl' hk f' hh hd =>
      (hw.copied.fields hr' hrow' hl' hk f' hh hd).extends h.store
  · exact fun hr' hrow' hl' hk f' hh hd =>
      (hw.copied.methods hr' hrow' hl' hk f' hh hd).extends h.store

/-- A type that is read as the original may be marked as defined, and with its children if they have been copied. -/
theorem Faithful.levelType {level : Level} (hw : C.Faithful p w)
    (hr : w.writer.types.find? (Reading.definitionIdentity C.source.store t) = some r)
    (hrow : r.row = .typeDef n) (hl : r.level ≤ level)
    (ht : C.source.store.Owns C.source.image t)
    (hdata : C.Echo w.store (Reading.typeData C.source.store (C.source.store.typeDef t))
      (Reading.typeData · (w.store.typeDef n)))
    (hchildren : .withChildren ≤ level → C.ChildrenCopied w t n) :
    let id := Reading.definitionIdentity C.source.store t
    let w' : WriteState := { w with
      writer := { w.writer with types := w.writer.types.atLevel id level } }
    C.Faithful p w' ∧ w.Keeps w' ∧ w'.writer.types.find? id = some { r with level } ∧
      ∀ {id' r'}, Normal id' → id ≠ id' → w.writer.types.find? id' = some r' →
        w'.writer.types.find? id' = some r' := by
  intro id w'
  have hid : Normal id := definitionIdentity_normal _ t
  have hnormal := hw.remembered.normal
  have before : ∀ {id' r'}, Normal id' → w'.writer.types.find? id' = some r' →
      (id = id' ∧ r' = { r with level }) ∨ (id ≠ id' ∧ w.writer.types.find? id' = some r') :=
    fun hid' => Memory.of_find?_atLevel hnormal hid hid' hr
  have after : ∀ {id' r'}, Normal id' → w.writer.types.find? id' = some r' →
      ∃ r'', w'.writer.types.find? id' = some r'' ∧ r''.row = r'.row ∧ r'.level ≤ r''.level :=
    fun hid' => Memory.find?_atLevel hnormal hid hid' hr hl
  have keeps : w.Keeps w' :=
    ⟨.refl _, after, fun h => ⟨_, h, rfl, Level.le_refl _⟩, fun h => ⟨_, h, rfl, Level.le_refl _⟩⟩
  -- what is written at a level has been so before, or is the type at hand
  have written : ∀ {level' t' n'}, C.source.store.Owns C.source.image t' →
      C.TypeWritten w' level' t' n' →
      (t' = t ∧ n' = n ∧ level' ≤ level) ∨ C.TypeWritten w level' t' n' := by
    rintro level' t' n' hi ⟨r', hr', hrow', hl'⟩
    rcases before (definitionIdentity_normal _ t') hr' with ⟨heq, rfl⟩ | ⟨-, hr'⟩
    · refine .inl ⟨C.regular.distinct (.own hi) (.own ht) heq.symm, ?_, hl'⟩
      cases hrow.symm.trans hrow'
      rfl
    · exact .inr ⟨r', hr', hrow', hl'⟩
  refine ⟨⟨hw.image, hw.hooks, hw.ground, ⟨fun hin hn => ?_, hw.listed.fields, hw.listed.methods⟩,
    ⟨Memory.atLevel_isNormal hnormal _, fun hid' hr' => ?_, hw.remembered.assemblies,
      hw.remembered.fields, hw.remembered.methods⟩,
    ⟨fun hi hw' => ?_, fun hi hw' => ?_, hw.copied.fields, hw.copied.methods, hw.copied.bodies⟩⟩,
    keeps, ?_, ?_⟩
  · rcases hw.listed.types hin hn with hp | ⟨id', r', hid', hr', hrow'⟩
    · exact .inl hp
    · obtain ⟨r'', hr'', hsame, -⟩ := after hid' hr'
      exact .inr ⟨id', r'', hid', hr'', hsame.trans hrow'⟩
  · rcases before hid' hr' with ⟨rfl, rfl⟩ | ⟨-, hr'⟩
    · have hs := hw.remembered.types hid' hr
      exact hs
    · exact hw.remembered.types hid' hr'
  · rcases written hi hw' with ⟨rfl, rfl, -⟩ | hw'
    · exact hdata
    · exact hw.copied.types hi hw'
  · rcases written hi hw' with ⟨rfl, rfl, hle⟩ | hw'
    · exact (hchildren hle).keeps keeps rfl
    · exact (hw.copied.children hi hw').keeps keeps rfl
  · exact (Memory.find?_atLevel_self _).trans (by rw [hr]; rfl)
  · exact fun hid' hne hr' => (Memory.find?_atLevel_of_ne hnormal hid hid' hne _).trans hr'

end Types

end Copy

end CilCatalog
