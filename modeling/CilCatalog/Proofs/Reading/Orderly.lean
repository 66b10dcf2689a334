import CilCatalog.Proofs.Reading.Growth
import CilCatalog.Reading.Entity

/-!
# Readings keep a catalog in order

What every reading does to a catalog, whether it succeeds or fails.

* `Orderly`: the data of a type has its children if it is on record with them, and none otherwise; children that are there know where they belong.
* `Reader.Advances`: nothing that is on record is lost, and the catalog grows.
* `Orders`: from an orderly reader a computation goes on to another, and what it gives is as it should be.
* `Reader.catalog_grows`: over any requests a catalog only grows.
* `Reader.coherent_afterAll`: after any requests the children in it are coherent with their parents (`Catalog.Coherent`).
-/

namespace CilCatalog

open Live

/-! ### Children and parents -/

/-- The children in the data `d` of the type with identity `id` under `k` are defined: fields and methods with the token of the type, and nested types, which have their own children, with its names. -/
structure Catalog.HasChildren (c : Catalog) (k : Token) (id : TypeIdentity) (d : TypeData) : Prop where
  nestedTypes : ∀ n ∈ d.nestedTypes.getD [], ∃ nid nd, c.types.get? n = some (.definition nid nd) ∧
    nd.Complete ∧ nid.assembly = none ∧ nid.ns = id.ns ∧
    nid.enclosing = some (id.name :: id.enclosing.getD [])
  fields : ∀ f ∈ d.fields.getD [], ∃ fid fd, c.fields.get? f = some (.definition fid fd) ∧
    fid.type = .token k
  methods : ∀ f ∈ d.methods.getD [], ∃ fid fd, c.methods.get? f = some (.definition fid fd) ∧
    fid.type = .token k

/-- Every type definition has none or all of its lists of children, and the children are there and belong to it. -/
def Catalog.Coherent (c : Catalog) : Prop :=
  ∀ k id d, c.types.get? k = some (.definition id d) →
    (d.Childless ∨ d.Complete) ∧ c.HasChildren k id d

theorem TypeData.Childless.hasChildren {c : Catalog} {k : Token} {id : TypeIdentity} {d : TypeData}
    (h : d.Childless) : c.HasChildren k id d := by
  refine ⟨?_, ?_, ?_⟩
  · rw [h.nestedTypes]
    exact nofun
  · rw [h.fields]
    exact nofun
  · rw [h.methods]
    exact nofun

/-- Children stay where they are. -/
theorem Catalog.HasChildren.grow {c c' : Catalog} {k : Token} {id : TypeIdentity} {d : TypeData}
    (h : c.HasChildren k id d) (hg : c.Grows c') : c'.HasChildren k id d where
  nestedTypes n hn := by
    obtain ⟨nid, nd, hk, hc, names⟩ := h.nestedTypes n hn
    exact ⟨nid, nd, hg.complete hk hc, hc, names⟩
  fields f hf := by
    obtain ⟨fid, fd, hk, ht⟩ := h.fields f hf
    exact ⟨fid, fd, hg.field hk, ht⟩
  methods f hf := by
    obtain ⟨fid, fd, hk, ht⟩ := h.methods f hf
    exact ⟨fid, fd, hg.method hk, ht⟩

/-- The lists of members hold nothing but members of the type, and no type lies within itself. -/
structure Source.Agrees (m : Source) : Prop where
  rooted : ∀ {t}, (m.store.typeDef t).image = m.image → m.store.Rooted t
  nested : ∀ {t}, (m.store.typeDef t).image = m.image →
    ∀ n ∈ (m.store.typeDef t).nestedTypes, (m.store.typeDef n).declaring = some t
  fields : ∀ {t}, (m.store.typeDef t).image = m.image →
    ∀ f ∈ (m.store.typeDef t).fields, (m.store.fieldDef f).declaring = some t
  methods : ∀ {t}, (m.store.typeDef t).image = m.image →
    ∀ f ∈ (m.store.typeDef t).methods, (m.store.methodDef f).declaring = some t

/-! ### Orderly readers -/

/-- What is on record of a type at a level is as much as the level says. -/
inductive OnLevel : TypeEntity → Level → Prop where
  | reference (id : TypeIdentity) : OnLevel (.reference id) .reference
  | definition (id : TypeIdentity) {d : TypeData} (h : d.Childless) :
      OnLevel (.definition id d) .definition
  | withChildren (id : TypeIdentity) {d : TypeData} (h : d.Complete) :
      OnLevel (.definition id d) .withChildren

namespace OnLevel

variable {e e' : TypeEntity} {l l' : Level}

theorem le (h : OnLevel e l) : .reference ≤ l := by
  cases h <;> decide

theorem isDefinition_iff (h : OnLevel e l) : e.isDefinition = true ↔ .definition ≤ l := by
  cases h with
  | reference => exact ⟨nofun, fun h => absurd h (by decide)⟩
  | definition => exact ⟨fun _ => by decide, fun _ => rfl⟩
  | withChildren => exact ⟨fun _ => by decide, fun _ => rfl⟩

theorem childless_or_complete {id : TypeIdentity} {d : TypeData} (h : OnLevel (.definition id d) l) :
    d.Childless ∨ d.Complete := by
  cases h with
  | definition _ hc => exact .inl hc
  | withChildren _ hc => exact .inr hc

theorem complete (h : OnLevel e l) (hl : .withChildren ≤ l) :
    ∃ id d, e = .definition id d ∧ d.Complete := by
  cases h with
  | reference => exact absurd hl (by decide)
  | definition => exact absurd hl (by decide)
  | withChildren id hc => exact ⟨id, _, rfl, hc⟩

/-- What is on record at a lower level becomes what is put in its place. -/
theorem becomes (h : OnLevel e l) (h' : OnLevel e' l') (hlt : l < l') (hid : e.identity = e'.identity)
    (same : ∀ {id d d'}, e = .definition id d → e' = .definition id d' → d.Childless → d'.Complete →
      d'.bare = d) : e.Becomes TypeData.Completes e' := by
  cases h with
  | reference id =>
      obtain rfl : id = e'.identity := hid
      cases h' with
      | reference => exact .same _
      | definition id _ => exact .defined id _
      | withChildren id _ => exact .defined id _
  | definition id hc =>
      cases h' with
      | reference => exact absurd hlt (by decide)
      | definition => exact absurd hlt (by decide)
      | withChildren id' hc' =>
          obtain rfl : id = id' := hid
          exact .extended id ⟨hc, hc', same rfl rfl hc hc'⟩
  | withChildren id hc => cases h' <;> exact absurd hlt (by decide)

end OnLevel

/-- What is on record belongs together, types have their children if they are on record with them, and the children belong to their types if the module says so. -/
structure Orderly (m : Source) (ρ : Reader) : Prop where
  sound : Sound m ρ
  levels : ∀ {id r e}, Normal id → ρ.registry.types.find? id = some r →
    ρ.catalog.types.get? r.token = some e → OnLevel e r.level
  children : m.Agrees → ∀ {k id d}, ρ.catalog.types.get? k = some (.definition id d) →
    ρ.catalog.HasChildren k id d

/-- Nothing that is on record is lost, and the catalog grows. -/
structure Reader.Advances (ρ ρ' : Reader) : Prop where
  grows : ρ.Grows ρ'
  catalog : ρ.catalog.Grows ρ'.catalog

theorem Reader.Advances.refl (ρ : Reader) : ρ.Advances ρ := ⟨.refl ρ, .refl _⟩

theorem Reader.Advances.trans {ρ₁ ρ₂ ρ₃ : Reader} (h : ρ₁.Advances ρ₂) (h' : ρ₂.Advances ρ₃) :
    ρ₁.Advances ρ₃ := ⟨h.grows.trans h'.grows, h.catalog.trans h'.catalog⟩

variable {m : Source} {ρ ρ' : Reader}

theorem start_orderly (m : Source) : Orderly m (.start m.image m.options) :=
  ⟨start_sound m, nofun, fun _ => nofun⟩

theorem Orderly.coherent (h : Orderly m ρ) (hm : m.Agrees) : ρ.catalog.Coherent := by
  intro k id d hk
  obtain ⟨hid, r, hr, rfl⟩ := h.sound.types.listed k _ hk
  exact ⟨(h.levels hid hr hk).childless_or_complete, h.children hm hk⟩

/-- A type of the module's image, whether its store has it or not, is on record with its children. -/
def TypeComplete (m : Source) (ρ : Reader) (t : TypeId) (k : Token) : Prop :=
  (m.store.typeDef t).image = m.image ∧ TypeFull m ρ t k

theorem TypeComplete.grow {t : TypeId} {k : Token} (h : TypeComplete m ρ t k) (hg : ρ.Grows ρ') :
    TypeComplete m ρ' t k := ⟨h.1, h.2.grow hg⟩

/-- A type that is on record with its children is stored with them. -/
theorem Orderly.complete (h : Orderly m ρ) {t : TypeId} {k : Token} (ht : TypeFull m ρ t k) :
    ∃ d, ρ.catalog.types.get? k = some (.definition (Reading.definitionIdentity m.store t) d) ∧
      d.Complete := by
  obtain ⟨r, hr, rfl, hl⟩ := ht
  have hid := definitionIdentity_normal m.store t
  obtain ⟨e, he, hidentity, -⟩ := h.sound.types.found _ r hid hr
  obtain ⟨id, d, rfl, hc⟩ := (h.levels hid hr he).complete hl
  obtain rfl : id = Reading.definitionIdentity m.store t := hidentity
  exact ⟨d, he, hc⟩

/-! ### Members and the types that declare them -/

/-- The identity of a member of a defined type has the token of that type. -/
theorem Read.of_memberIdentity {s : Store} {name : Bytes} {t : TypeId} {c : CallSig}
    {id : MemberIdentity} (h : Read m ρ (Reading.memberIdentity s name (.typeDef t) c) id) :
    ∃ r, ρ.registry.types.find? (Reading.definitionIdentity s t) = some r ∧
      id.type = .token r.token := by
  obtain ⟨type, htype, h⟩ := h.of_bind (.typeTree s _) fun _ => (Steady.callSigTree s c).bind fun _ => .pure _
  obtain ⟨sig, -, rfl⟩ := h.of_bind_pure (.callSigTree s c)
  obtain ⟨k, hk, rfl⟩ := htype.of_bind_pure (Steady.definedType s t)
  obtain ⟨-, -, hk⟩ := hk.of_bind (.checkType s t) fun _ => .typeReference (definitionIdentity_normal s t)
  obtain ⟨r, hr, rfl⟩ := hk.of_typeReference (definitionIdentity_normal s t)
  exact ⟨r, hr, rfl⟩

/-- A member that is read as one of a type has the token of that type. -/
theorem Read.of_declared {s : Store} {what : String} {name : Bytes} {declaring : Option TypeId} {t : TypeId}
    {c : CallSig} {id : MemberIdentity}
    (h : Read m ρ (do
      let t ← Reading.declaringType s what name declaring
      Reading.memberIdentity s name (.typeDef t) c) id) (ht : declaring = some t) :
    ∃ r, ρ.registry.types.find? (Reading.definitionIdentity s t) = some r ∧
      id.type = .token r.token := by
  obtain ⟨t', ht', hid⟩ := h.of_bind (.declaringType _ _ _ _) fun _ => .memberIdentity _ _ _ _
  cases ht.symm.trans ht'.of_declaringType.1
  exact hid.of_memberIdentity

/-- A member that is on record with its definition is stored as one. -/
theorem ReadingKind.Done.stored {δ : Type} {K : ReadingKind MemberIdentity δ} {k : Token}
    (h : K.Done m ρ k) (hs : Sound m ρ) :
    ∃ id d, (K.part.entities ρ).get? k = some (.definition id d) ∧ Read m ρ K.identity id := by
  obtain ⟨id, r, hid, hr, rfl, hl⟩ := h
  obtain ⟨e, he, rfl, hdef⟩ := (K.part.books hs).found id r trivial hr
  cases e with
  | reference id => exact absurd (hdef.2 hl) Bool.false_ne_true
  | definition id d => exact ⟨id, d, he, hid⟩

/-- The children that have been read for a type belong to it. -/
theorem Orderly.hasChildren (h : Orderly m ρ) (hm : m.Agrees) {t : TypeId} {r : Registration}
    {ns fs ms : List Token} {d : TypeData} (ht : (m.store.typeDef t).image = m.image)
    (hr : ρ.registry.types.find? (Reading.definitionIdentity m.store t) = some r)
    (hns : List.Forall₂ (TypeComplete m ρ) (m.store.typeDef t).nestedTypes ns)
    (hfs : List.Forall₂ (FieldDone m ρ) (m.store.typeDef t).fields fs)
    (hms : List.Forall₂ (MethodDone m ρ) (m.store.typeDef t).methods ms)
    (hd : d.nestedTypes = some ns ∧ d.fields = some fs ∧ d.methods = some ms) :
    ρ.catalog.HasChildren r.token (Reading.definitionIdentity m.store t) d := by
  obtain ⟨hdn, hdf, hdm⟩ := hd
  refine ⟨fun n hn => ?_, fun f hf => ?_, fun f hf => ?_⟩
  · rw [hdn] at hn
    obtain ⟨i, hi, hdone⟩ := forall₂_mem_right hns hn
    obtain ⟨nd, hk, hc⟩ := h.complete hdone.2
    refine ⟨_, nd, hk, hc, ?_⟩
    rw [definitionIdentity_nested (hm.rooted hdone.1) (hm.nested ht i hi)]
    exact ⟨rfl, rfl, rfl⟩
  · rw [hdf] at hf
    obtain ⟨i, hi, hdone⟩ := forall₂_mem_right hfs hf
    obtain ⟨id, d, hk, hid⟩ := ReadingKind.Done.stored hdone h.sound
    obtain ⟨r', hr', htype⟩ := hid.of_declared (hm.fields ht i hi)
    cases hr.symm.trans hr'
    exact ⟨id, d, hk, htype⟩
  · rw [hdm] at hf
    obtain ⟨i, hi, hdone⟩ := forall₂_mem_right hms hf
    obtain ⟨id, d, hk, hid⟩ := ReadingKind.Done.stored hdone h.sound
    obtain ⟨r', hr', htype⟩ := hid.of_declared (hm.methods ht i hi)
    cases hr.symm.trans hr'
    exact ⟨id, d, hk, htype⟩

/-! ### Registrations -/

/-- Above the level of a definition there is only that with children. -/
theorem Level.eq_withChildren {l : Level} (h : ¬ l ≤ .definition) (h' : l ≤ .withChildren) :
    l = .withChildren := by
  obtain ⟨code⟩ := l
  have h : ¬ code ≤ 1 := h
  have h' : code ≤ 2 := h'
  rw [Int32.le_iff_toInt_le] at h h'
  have : code.toInt = (2 : Int32).toInt := Int.le_antisymm h' (Int.not_le.1 h)
  rw [Int32.toInt_inj.1 this]
  rfl

section Register

variable {u : Registered} {level : Level}

theorem RegisterStep.token_eq {named : Bool} {ι δ : Type} [Identity ι] {l l' : Ledger ι}
    {t t' : TokenMap named (Entity ι δ)} {e : Entity ι δ} (h : RegisterStep l t e level u l' t')
    {r : Registration} (hr : l.find? e.identity = some r) : u.token = r.token := by
  cases h with
  | known r' hr' _ =>
      cases hr.symm.trans hr'
      rfl
  | raised r' hr' _ _ =>
      cases hr.symm.trans hr'
      rfl
  | new t t' hn _ =>
      rw [hn] at hr
      exact nomatch hr

/-- A type is registered in order if the children that come with it are, and if they come in addition to what is stored. -/
theorem Orderly.registerType {e : TypeEntity} (ho : Orderly m ρ) (he : Normal e.identity)
    (hl : OnLevel e level)
    (same : ∀ {id d d₀}, ρ.catalog.types.get? u.token = some (.definition id d₀) →
      e = .definition id d → d₀.Childless → d.Complete → d.bare = d₀)
    (children : m.Agrees → ∀ {id d}, e = .definition id d → d.Complete →
      ρ.catalog.HasChildren u.token id d)
    (h : Gives (Reading.registerType e level) ρ u ρ') : Orderly m ρ' ∧ ρ.Advances ρ' := by
  obtain ⟨l, t, step, rfl⟩ := step_of_registerType ho.sound he h
  have books := step.books ho.sound.types he hl.le hl.isDefinition_iff
  have grows : ρ.catalog.Grows { ρ.catalog with types := t } := by
    refine ⟨rfl, step.entries .same ho.sound.types he ?_, .refl .same _, .refl .same _⟩
    intro r e₀ hr hlt h₀ hid
    refine (ho.levels he hr h₀).becomes hl hlt hid fun h₀' he' => same ?_ he'
    rw [step.token_eq hr, h₀, h₀']
  refine ⟨⟨⟨ho.sound.image, ho.sound.options, books, ho.sound.fields, ho.sound.methods⟩, ?_, ?_⟩,
    ⟨step.grows ho.sound.types he, .refl _, .refl _, fun h => h, fun h => h⟩, grows⟩
  · intro id r e' hid hr ht
    rcases step.own with ⟨rfl, rfl, -⟩ | ⟨hown, hstored⟩
    · exact ho.levels hid hr ht
    · by_cases hne : e.identity = id
      · subst hne
        cases hr.symm.trans hown
        cases ht.symm.trans hstored
        exact hl
      · -- the token is that of another type, whose entity stays
        have hr₀ := (step.find?_of_ne ho.sound.types he hid hne).symm.trans hr
        rcases step.stored ht with ht₀ | ⟨heq, -⟩
        · exact ho.levels hid hr₀ ht₀
        · exact absurd (books.inj he hid hown hr heq.symm) hne
  · intro hm k id d hk
    rcases step.stored hk with hk | ⟨rfl, rfl⟩
    · exact (ho.children hm hk).grow grows
    · cases hl with
      | definition _ hc => exact hc.hasChildren
      | withChildren _ hc => exact (children hm rfl hc).grow grows

/-- A definition without children is registered in order. -/
theorem Orderly.registerChildless {id : TypeIdentity} {d : TypeData} (ho : Orderly m ρ)
    (hid : Normal id) (hd : d.Childless)
    (h : Gives (Reading.registerType (.definition id d) .definition) ρ u ρ') :
    Orderly m ρ' ∧ ρ.Advances ρ' :=
  ho.registerType (e := .definition id d) hid (.definition id hd)
    (fun _ he _ hc => by cases he; exact absurd hd hc.not_childless)
    (fun _ _ _ he hc => by cases he; exact absurd hd hc.not_childless) h

/-- A kind of members is nothing to the types, and its entities are those of the catalog. -/
structure Reader.Part.OfMembers {δ : Type} (P : Reader.Part MemberIdentity δ) : Prop where
  grows : ∀ {ρ l t}, (P.entities ρ).Grows (Entity.Becomes fun _ _ => False) t →
    ρ.catalog.Grows (P.put ρ l t).catalog
  types : ∀ ρ l t, (P.put ρ l t).registry.types = ρ.registry.types
  typeEntities : ∀ ρ l t k, (P.put ρ l t).catalog.types.get? k = ρ.catalog.types.get? k

theorem Reader.Part.fields_ofMembers : Reader.Part.fields.OfMembers where
  grows h := ⟨rfl, .refl .same _, h, .refl .same _⟩
  types _ _ _ := rfl
  typeEntities _ _ _ _ := rfl

theorem Reader.Part.methods_ofMembers : Reader.Part.methods.OfMembers where
  grows h := ⟨rfl, .refl .same _, .refl .same _, h⟩
  types _ _ _ := rfl
  typeEntities _ _ _ _ := rfl

/-- A member is registered in order. -/
theorem Orderly.registerMember {δ : Type} {P : Reader.Part MemberIdentity δ} (hP : P.OfMembers)
    {e : Entity MemberIdentity δ} (ho : Orderly m ρ) (hl : .reference ≤ level) (hl' : level ≤ .definition)
    (hd : e.isDefinition = true ↔ .definition ≤ level) (h : Gives (P.register e level) ρ u ρ') :
    Orderly m ρ' ∧ ρ.Advances ρ' := by
  obtain ⟨l, t, step, rfl⟩ := P.step ho.sound trivial h
  have books := P.books ho.sound
  have grows : ρ.catalog.Grows (P.put ρ l t).catalog :=
    hP.grows (step.entries .same books trivial fun hr hlt h₀ hid =>
      books.becomes trivial hr hlt hl' hd h₀ hid)
  refine ⟨⟨P.sound ho.sound (step.books books trivial hl hd), ?_, ?_⟩,
    P.grows (step.grows books trivial) fun h => step.kept_definition books trivial hl' h, grows⟩
  · intro id r e hid hr he
    rw [hP.types] at hr
    rw [hP.typeEntities] at he
    exact ho.levels hid hr he
  · intro hm k id d hk
    rw [hP.typeEntities] at hk
    exact (ho.children hm hk).grow grows

theorem Orderly.registerField {e : FieldEntity} (ho : Orderly m ρ) (hl : .reference ≤ level)
    (hl' : level ≤ .definition) (hd : e.isDefinition = true ↔ .definition ≤ level)
    (h : Gives (Reading.registerField e level) ρ u ρ') : Orderly m ρ' ∧ ρ.Advances ρ' :=
  ho.registerMember Reader.Part.fields_ofMembers hl hl' hd h

theorem Orderly.registerMethod {e : MethodEntity} (ho : Orderly m ρ) (hl : .reference ≤ level)
    (hl' : level ≤ .definition) (hd : e.isDefinition = true ↔ .definition ≤ level)
    (h : Gives (Reading.registerMethod e level) ρ u ρ') : Orderly m ρ' ∧ ρ.Advances ρ' :=
  ho.registerMember Reader.Part.methods_ofMembers hl hl' hd h

/-- Registering a reference is in order. -/
theorem Orderly.refers (ho : Orderly m ρ) (h : ρ.Refers ρ') : Orderly m ρ' ∧ ρ.Advances ρ' := by
  induction h with
  | refl => exact ⟨ho, .refl ρ⟩
  | type _ hid hu ih =>
      obtain ⟨ho₁, ha₁⟩ := ih
      obtain ⟨ho₂, ha₂⟩ := ho₁.registerType (e := .reference _) hid (.reference _) (fun _ => nofun) (fun _ => nofun) hu
      exact ⟨ho₂, ha₁.trans ha₂⟩
  | field _ hu ih =>
      obtain ⟨ho₁, ha₁⟩ := ih
      obtain ⟨ho₂, ha₂⟩ := ho₁.registerField (Level.le_refl _) (by decide) (Entity.isDefinition_reference _) hu
      exact ⟨ho₂, ha₁.trans ha₂⟩
  | method _ hu ih =>
      obtain ⟨ho₁, ha₁⟩ := ih
      obtain ⟨ho₂, ha₂⟩ := ho₁.registerMethod (Level.le_refl _) (by decide) (Entity.isDefinition_reference _) hu
      exact ⟨ho₂, ha₁.trans ha₂⟩

end Register

/-! ### Computations that keep order -/

/-- If the reader is orderly, the computation leaves an orderly one that has advanced; if it succeeds, its result is as it should be. -/
def Orders (m : Source) (ρ : Reader) {α : Type} (x : Reading α) (Q : Reader → α → Prop) : Prop :=
  Orderly m ρ → Orderly m (x ρ).2 ∧ ρ.Advances (x ρ).2 ∧ ∀ a, (x ρ).1 = .ok a → Q (x ρ).2 a

namespace Orders

variable {α β : Type} {x : Reading α} {P Q : Reader → α → Prop}

theorem pure {a : α} (h : Q ρ a) : Orders m ρ (pure a : Reading α) Q := by
  intro ho
  refine ⟨ho, .refl ρ, ?_⟩
  rintro _ ⟨⟩
  exact h

theorem throw {f : Failure ReadFault} : Orders m ρ (throw f : Reading α) Q := by
  intro ho
  refine ⟨ho, .refl ρ, ?_⟩
  rintro _ ⟨⟩

theorem refuse {f : ReadFault} : Orders m ρ (Reading.refuse f : Reading α) Q := throw

theorem get : Orders m ρ (get : Reading Reader) fun ρ' v => ρ = ρ' ∧ ρ = v := by
  intro ho
  refine ⟨ho, .refl ρ, ?_⟩
  rintro _ ⟨⟩
  exact ⟨rfl, rfl⟩

theorem bind {f : α → Reading β} {R : Reader → β → Prop} (hx : Orders m ρ x P)
    (hf : ∀ {a ρ₁}, Orderly m ρ₁ → ρ.Advances ρ₁ → P ρ₁ a → Orders m ρ₁ (f a) R) :
    Orders m ρ (x >>= f) R := by
  intro ho
  obtain ⟨ho₁, ha₁, hP⟩ := hx ho
  cases h : x ρ with
  | mk r ρ₁ =>
      rw [h] at ho₁ ha₁ hP
      cases r with
      | error e =>
          rw [run_bind_error h]
          refine ⟨ho₁, ha₁, ?_⟩
          rintro _ ⟨⟩
      | ok a =>
          rw [run_bind_ok h]
          obtain ⟨ho₂, ha₂, hR⟩ := hf ho₁ ha₁ (hP a rfl) ho₁
          exact ⟨ho₂, ha₁.trans ha₂, hR⟩

theorem imp (hx : Orders m ρ x P) (h : ∀ {ρ' a}, P ρ' a → Q ρ' a) : Orders m ρ x Q := by
  intro ho
  obtain ⟨ho', ha, hP⟩ := hx ho
  exact ⟨ho', ha, fun a hx => h (hP a hx)⟩

theorem ite {p : Prop} [Decidable p] {y : Reading α} (hx : p → Orders m ρ x Q)
    (hy : ¬ p → Orders m ρ y Q) : Orders m ρ (if p then x else y) Q := by
  split
  · next h => exact hx h
  · next h => exact hy h

/-- What reads references keeps order. -/
theorem of_steady (hx : Steady m x) : Orders m ρ x fun ρ' a => Gives x ρ a ρ' := by
  intro ho
  obtain ⟨ho', ha⟩ := ho.refers (hx.refers ρ)
  exact ⟨ho', ha, fun a h => Prod.ext h rfl⟩

theorem mapM {f : α → Reading β} {R : α → Reader → β → Prop} {as : List α}
    (hf : ∀ a ∈ as, ∀ {ρ}, Orders m ρ (f a) (R a))
    (hR : ∀ {a ρ ρ' b}, R a ρ b → ρ.Grows ρ' → R a ρ' b) :
    Orders m ρ (as.mapM f) fun ρ' bs => List.Forall₂ (fun a b => R a ρ' b) as bs := by
  induction as generalizing ρ with
  | nil => exact pure .nil
  | cons a as ih =>
      rw [List.mapM_cons]
      refine (hf a List.mem_cons_self).bind fun _ _ hb =>
        (ih fun a' ha' => hf a' (List.mem_cons_of_mem a ha')).bind fun _ ha hbs => pure ?_
      exact .cons (hR hb ha.grows) hbs

theorem each {f : α → Reading β} {R : α → Reader → β → Prop} {as : List α}
    (hf : ∀ a ∈ as, ∀ {ρ}, Orders m ρ (f a) (R a)) : Orders m ρ (as.mapM f) fun _ _ => True :=
  (mapM (R := fun _ _ _ => True) (fun a ha => (hf a ha).imp fun _ => trivial)
    fun _ _ => trivial).imp fun _ => trivial

/-- What changes nothing where it fails keeps order if it does where it succeeds. -/
theorem of_outcome (outcome : (∃ a ρ', Gives x ρ a ρ') ∨ ∃ e, x ρ = (.error e, ρ))
    (h : ∀ {a ρ'}, Orderly m ρ → Gives x ρ a ρ' → Orderly m ρ' ∧ ρ.Advances ρ') :
    Orders m ρ x fun ρ' a => Gives x ρ a ρ' := by
  intro ho
  rcases outcome with ⟨a, ρ', ha⟩ | ⟨e, he⟩
  · rw [show x ρ = (.ok a, ρ') from ha]
    obtain ⟨ho', hadv⟩ := h ho ha
    refine ⟨ho', hadv, ?_⟩
    rintro _ ⟨⟩
    exact ha
  · rw [he]
    refine ⟨ho, .refl ρ, ?_⟩
    rintro _ ⟨⟩

theorem registering
    {f : Registry → Catalog → Except RegistryFault (Registered × Registry × Catalog)}
    (h : ∀ {u ρ'}, Orderly m ρ → Gives (Reading.registering f) ρ u ρ' →
      Orderly m ρ' ∧ ρ.Advances ρ') :
    Orders m ρ (Reading.registering f) fun ρ' u => Gives (Reading.registering f) ρ u ρ' :=
  of_outcome (registering_outcome f ρ) h

theorem checkLevel {highest asked : Level} :
    Orders m ρ (Reading.checkLevel highest asked) fun _ _ => asked ≤ highest :=
  ite (fun _ => refuse) fun h => pure (Level.le_of_not_lt fun h' => h (.inr h'))

/-! ### Fields and methods -/

theorem member {δ : Type} {K : ReadingKind MemberIdentity δ} (law : K.Recording m)
    (hP : K.part.OfMembers) (level : Level) :
    Orders m ρ (K.member level) fun ρ' k => level = .definition → K.Done m ρ' k := by
  refine checkLevel.bind fun ho₀ _ _ => (of_steady law.identity).bind fun {id ρ₁} ho₁ _ hid =>
    (of_outcome (K.part.outcome _ _ _) fun ho h => ho.refers (K.part.refers trivial h)).bind
      fun {u ρ₂} ho₂ ha₂ hu => ite (fun hle => pure ?_) fun _ => (of_steady law.data).bind
        fun {d ρ₃} ho₃ ha₃ _ => (of_outcome (K.part.outcome _ _ _) fun ho h =>
          ho.registerMember hP (e := .definition id d) (by decide) (Level.le_refl _)
            (Entity.isDefinition_definition id d (Level.le_refl _)) h).bind
              fun {v ρ₄} ho₄ ha₄ hv => pure ?_
  · rintro rfl
    obtain ⟨l, t, step, rfl⟩ := K.part.step (e := .reference id) ho₁.sound trivial hu
    obtain ⟨r, hr, ht, hl⟩ := step.level_eq (K.part.books ho₁.sound) trivial
    exact ⟨id, r, (Read.of_gives ho₀.sound hid).grow ha₂.grows, (K.part.ledger_put ρ₁ l t).symm ▸ hr,
      ht, hl.symm ▸ hle⟩
  · rintro rfl
    obtain ⟨l, t, step, rfl⟩ := K.part.step (e := .definition id d) ho₃.sound trivial hv
    obtain ⟨r, hr, ht, hl⟩ := step.recorded
    exact ⟨id, r, (Read.of_gives ho₀.sound hid).grow (ha₂.trans (ha₃.trans ha₄)).grows,
      (K.part.ledger_put ρ₃ l t).symm ▸ hr, ht, hl⟩

theorem field (f : Option FieldId) (level : Level) :
    Orders m ρ (Reading.field m.store f level) fun ρ' k =>
      ∀ i, f = some i → level = .definition → FieldDone m ρ' i k := by
  cases f with
  | none => exact refuse
  | some f =>
      refine (member (fieldKind_recording f) Reader.Part.fields_ofMembers level).imp fun done => ?_
      rintro _ ⟨⟩
      exact done

theorem method (f : Option MethodId) (level : Level) :
    Orders m ρ (Reading.method m.store f level) fun ρ' k =>
      ∀ i, f = some i → level = .definition → MethodDone m ρ' i k := by
  cases f with
  | none => exact refuse
  | some f =>
      refine (member (methodKind_recording f) Reader.Part.methods_ofMembers level).imp fun done => ?_
      rintro _ ⟨⟩
      exact done

theorem fields (fs : List FieldId) :
    Orders m ρ (Reading.fields m.store (fs.map some) .definition) fun ρ' ks =>
      List.Forall₂ (FieldDone m ρ') fs ks := by
  unfold Reading.fields
  rw [List.mapM_map]
  exact mapM (fun f _ => (field (some f) .definition).imp fun h => h f rfl rfl) fun h hg => h.grow hg

theorem methods (fs : List MethodId) :
    Orders m ρ (Reading.methods m.store (fs.map some) .definition) fun ρ' ks =>
      List.Forall₂ (MethodDone m ρ') fs ks := by
  unfold Reading.methods
  rw [List.mapM_map]
  exact mapM (fun f _ => (method (some f) .definition).imp fun h => h f rfl rfl) fun h hg => h.grow hg

/-! ### Types -/

/-- The children of a type that is on record are put on record with it. -/
theorem children {t : TypeId} {k : Token} {ns : List Token}
    (ht : (m.store.typeDef t).image = m.image)
    (hk : ∃ r, ρ.registry.types.find? (Reading.definitionIdentity m.store t) = some r ∧ r.token = k)
    (hns : List.Forall₂ (TypeComplete m ρ) (m.store.typeDef t).nestedTypes ns) :
    Orders m ρ (Reading.children m.store t k ns) fun ρ' _ => TypeComplete m ρ' t k := by
  refine (fields _).bind fun {fs ρ₁} _ ha₁ hfs => (methods _).bind fun {ms ρ₂} _ ha₂ hms =>
    (of_steady (.mapM _ (Steady.property m.store))).bind fun {ps ρ₃} _ ha₃ _ =>
      (of_steady (.mapM _ (Steady.event m.store))).bind fun {es ρ₄} ho₄ ha₄ _ =>
        get.bind fun {_ _} _ _ hget => ?_
  obtain ⟨rfl, rfl⟩ := hget
  have hg := ha₁.grows.trans (ha₂.grows.trans (ha₃.grows.trans ha₄.grows))
  have hnorm := definitionIdentity_normal m.store t
  obtain ⟨r₀, hr₀, rfl⟩ := hk
  obtain ⟨r, hr, htoken, -⟩ := hg.types _ r₀ hnorm hr₀
  rw [← htoken]
  -- what is stored under the token is the type
  obtain ⟨e, he, hid, -⟩ := ho₄.sound.types.found _ r hnorm hr
  rw [TokenMap.get_of_get? he]
  cases e with
  | reference id => exact throw
  | definition id d =>
      obtain rfl : id = Reading.definitionIdentity m.store t := hid
      have hchildren : m.Agrees → ∀ {d' : TypeData},
          d'.nestedTypes = some ns ∧ d'.fields = some fs ∧ d'.methods = some ms →
            ρ₄.catalog.HasChildren r.token (Reading.definitionIdentity m.store t) d' := by
        intro hm d' hd'
        refine ho₄.hasChildren hm ht hr ?_ ?_ ?_ hd'
        · exact hns.imp fun _ _ h => h.grow hg
        · exact hfs.imp fun _ _ h => h.grow (ha₂.grows.trans (ha₃.grows.trans ha₄.grows))
        · exact hms.imp fun _ _ h => h.grow (ha₃.grows.trans ha₄.grows)
      refine (pure (Q := fun ρ' d' => ρ₄ = ρ' ∧ d = d') ⟨rfl, rfl⟩).bind fun {_ _} _ _ h => ?_
      obtain ⟨rfl, rfl⟩ := h
      refine (registering fun {u _} _ hu => ?_).bind fun {u ρ₅} _ ha₅ hu => pure ?_
      · have token : u.token = r.token := by
          obtain ⟨l, tm, step, -⟩ := step_of_registerType (e := .definition _ _) ho₄.sound hnorm hu
          exact step.token_eq hr
        refine ho₄.registerType (e := .definition _ _) hnorm (.withChildren _ ⟨rfl, rfl, rfl, rfl, rfl⟩)
          ?_ ?_ hu
        · rintro id d' d₀ h₀ ⟨⟩ hc -
          rw [token, he] at h₀
          cases h₀
          exact hc.bare
        · rintro hm id d' ⟨⟩ -
          rw [token]
          exact hchildren hm ⟨rfl, rfl, rfl⟩
      · obtain ⟨l, tm, step, rfl⟩ := step_of_registerType (e := .definition _ _) ho₄.sound hnorm hu
        obtain ⟨r', hr', htoken', hl⟩ := step.recorded
        exact ⟨ht, r', hr', htoken'.trans (step.token_eq hr), hl⟩

theorem typeWithin (depth : Nat) : ∀ (t : Option TypeId) (level : Level) {ρ : Reader},
    Orders m ρ (Reading.typeWithin m.store depth t level) fun ρ' k =>
      ∀ i, t = some i → level = .withChildren → TypeComplete m ρ' i k := by
  induction depth with
  | zero => exact fun _ _ _ => throw
  | succ depth ih =>
      intro t level ρ
      cases t with
      | none => exact refuse
      | some t =>
          have hnorm := definitionIdentity_normal m.store t
          -- what follows the definition, whether that has just been read or was on record before
          have rest {ρ : Reader} {u : Registered} (ht : (m.store.typeDef t).image = m.image)
              (hk : ∃ r, ρ.registry.types.find? (Reading.definitionIdentity m.store t) = some r ∧
                r.token = u.token) (hle : level ≤ .withChildren) :
              Orders m ρ (do
                if level ≤ .definition then return u.token
                let nested ← (m.store.typeDef t).nestedTypes.mapM fun n =>
                  Reading.typeWithin m.store depth (some n) level
                Reading.children m.store t u.token nested
                return u.token) fun ρ' k =>
                  ∀ i, some t = some i → level = .withChildren → TypeComplete m ρ' i k := by
            refine ite (fun hdef => pure ?_) fun hdef => ?_
            · rintro _ ⟨⟩ rfl
              exact absurd hdef (by decide)
            · obtain rfl := Level.eq_withChildren hdef hle
              refine (mapM (fun n _ => (ih (some n) .withChildren).imp fun h => h n rfl rfl)
                fun h hg => h.grow hg).bind fun {ns ρ₁} _ ha hns => ?_
              obtain ⟨r, hr, htoken⟩ := hk
              obtain ⟨r', hr', htoken', -⟩ := ha.grows.types _ r hnorm hr
              refine (children ht ⟨r', hr', htoken'.trans htoken⟩ hns).bind fun _ _ hdone => pure ?_
              rintro _ ⟨⟩ -
              exact hdone
          refine checkLevel.bind fun ho₀ _ hle => (of_steady (Steady.checkType m.store t)).bind
            fun {_ ρ₁} ho₁ _ hcheck =>
              (registering fun ho h => ho.refers (.type (.refl _) hnorm h)).bind
                fun {u ρ₂} ho₂ ha₂ hu => ?_
          have ht : (m.store.typeDef t).image = m.image := by
            rw [(gives_checkType.1 hcheck).1, ho₀.sound.image]
          have hk : ∃ r, ρ₂.registry.types.find? (Reading.definitionIdentity m.store t) = some r ∧
              r.token = u.token ∧ r.level = u.oldLevel := by
            obtain ⟨l, tm, step, rfl⟩ := step_of_registerType (e := .reference _) ho₁.sound hnorm hu
            exact step.level_eq ho₁.sound.types hnorm
          obtain ⟨r, hr, htoken, hlevel⟩ := hk
          refine ite (fun hle => pure ?_) fun _ => ite (fun _ => ?_) fun _ => rest ht ⟨r, hr, htoken⟩ hle
          · rintro _ ⟨⟩ rfl
            exact ⟨ht, r, hr, htoken, hlevel ▸ hle⟩
          · refine (of_steady (Steady.typeData m.store _)).bind fun {d ρ₃} _ ha₃ hd =>
              (registering fun ho h => ?_).bind fun {v ρ₄} _ ha₄ _ => ?_
            · exact ho.registerChildless hnorm (TypeData.childless_of_bare (typeData_bare hd)) h
            · obtain ⟨r', hr', htoken', -⟩ := (ha₃.trans ha₄).grows.types _ r hnorm hr
              exact rest ht ⟨r', hr', htoken'.trans htoken⟩ hle

/-! ### Requests -/

theorem serve (q : Reader.Request) : Orders m ρ (Reader.serve m.store q) fun _ _ => True := by
  have answer {α : Type} {x : Reading α} {Q : Reader → α → Prop} {f : α → Reader.Answer}
      (hx : Orders m ρ x Q) : Orders m ρ (x >>= fun a => return f a) fun _ _ => True :=
    hx.bind fun _ _ _ => pure trivial
  cases q with
  | type t level => exact answer (typeWithin _ t level)
  | field f level => exact answer (field f level)
  | method f level => exact answer (method f level)
  | types ts level => exact answer (each fun t _ => typeWithin _ t level)
  | fields fs level => exact answer (each fun f _ => field f level)
  | methods fs level => exact answer (each fun f _ => method f level)
  | specification t =>
      cases t with
      | none => exact refuse
      | some t => exact answer (of_steady (Steady.typeSigTree m.store t))

end Orders

/-! ### Everything a reader is asked for -/

namespace Reader

theorem orderly_afterAll (h : Orderly m ρ) (qs : List Request) :
    Orderly m (ρ.afterAll m.store qs) ∧ ρ.Advances (ρ.afterAll m.store qs) := by
  induction qs generalizing ρ with
  | nil => exact ⟨h, .refl ρ⟩
  | cons q qs ih =>
      obtain ⟨h₁, ha₁, -⟩ := Orders.serve q h
      obtain ⟨h₂, ha₂⟩ := ih h₁
      exact ⟨h₂, ha₁.trans ha₂⟩

theorem afterAll_append (s : Store) (ρ : Reader) (qs qs' : List Request) :
    ρ.afterAll s (qs ++ qs') = (ρ.afterAll s qs).afterAll s qs' :=
  List.foldl_append

/-- Whatever a reader is asked for next, and whether or not it refuses, what it has recorded only grows. -/
theorem catalog_grows (s : Store) (i : ImageId) (o : Options) (qs qs' : List Request) :
    ((start i o).afterAll s qs).catalog.Grows ((start i o).afterAll s (qs ++ qs')).catalog := by
  have h := (orderly_afterAll (start_orderly ⟨s, i, o⟩) qs).1
  rw [afterAll_append]
  exact (orderly_afterAll h qs').2.catalog

/-- Whatever a reader of a module whose lists of members agree with its members is asked for, and whether or not it refuses, children are coherent with their parents. -/
theorem coherent_afterAll (hm : m.Agrees) (qs : List Request) :
    ((start m.image m.options).afterAll m.store qs).catalog.Coherent :=
  (orderly_afterAll (start_orderly m) qs).1.coherent hm

/-- A type with a field, a method and a type inside. -/
def family : Source where
  store := {
    images := [⟨"m", [⟨0⟩], [], [], [], []⟩]
    typeDefs := [
      { image := ⟨0⟩, ns := "N", name := "Outer", nestedTypes := [⟨1⟩], fields := [⟨0⟩],
        methods := [⟨0⟩] },
      { image := ⟨0⟩, ns := [], name := "Inner", declaring := some ⟨0⟩ }]
    fieldDefs := [
      { name := "f", signature := .field (.leaf .i8 rfl), declaring := some ⟨0⟩ }]
    methodDefs := [
      { name := "g", signature := .method 0 rfl 0 (.leaf .boolean rfl) [] [], declaring := some ⟨0⟩ }]
    nextRow := 0 }
  image := ⟨0⟩
  options := .default

theorem family_agrees : family.Agrees := by
  have types : ∀ t : TypeId, t = ⟨0⟩ ∨ t = ⟨1⟩ ∨ family.store.typeDef t = default := by
    rintro ⟨_ | _ | n⟩
    · exact .inl rfl
    · exact .inr (.inl rfl)
    · exact .inr (.inr rfl)
  refine ⟨fun {t} _ => ?_, fun {t} _ => ?_, fun {t} _ => ?_, fun {t} _ => ?_⟩
  all_goals rcases types t with rfl | rfl | ht
  · exact Store.rooted_of_top rfl
  · exact (rfl : (family.store.typeDef (family.store.outermost ⟨1⟩)).declaring = none)
  · exact Store.rooted_of_top (by rw [ht]; rfl)
  all_goals first
    | decide
    | rw [ht]; exact nofun

/-- What is read of the type above has its member lists, and they are coherent with it. -/
theorem coherent_family :
    (((start family.image family.options).afterAll family.store
      [.type (some ⟨0⟩) .withChildren]).catalog.types.values.map fun e =>
        e.data?.map fun d => (d.nestedTypes, d.fields, d.methods)) =
      [some (some [.index 1], some [.index 0], some [.index 0]), some (some [], some [], some [])] ∧
    ((start family.image family.options).afterAll family.store
      [.type (some ⟨0⟩) .withChildren]).catalog.Coherent :=
  ⟨by decide +kernel, coherent_afterAll family_agrees _⟩

end Reader

end CilCatalog
