import CilCatalog.Proofs.Reading.Read

/-!
# What a reading leaves on record

A reading of types with their children records definitions.  Each of them has been read from a definition of the module, and so have the children of each type that is on record with them.

* `Recorded`: where the definitions on record come from.
* `Records`: a computation keeps that, loses nothing, and establishes something about its result.
* `types_records`: reading types with their children leaves every one of them on record with its children (`TypeDone`).
-/

namespace CilCatalog

open Live

/-! ### Lists that are related -/

section Lists

variable {α β γ : Type} {R : α → β → Prop} {S : β → γ → Prop} {T : α → γ → Prop} {as : List α}
  {bs : List β} {cs : List γ} {b : β}

theorem forall₂_comp (h : List.Forall₂ R as bs) (h' : List.Forall₂ S bs cs)
    (hT : ∀ {a b c}, R a b → S b c → T a c) : List.Forall₂ T as cs := by
  induction h generalizing cs with
  | nil =>
      cases h'
      exact .nil
  | cons hab _ ih =>
      cases h' with
      | cons hbc h' => exact .cons (hT hab hbc) (ih h')

theorem forall₂_mem_right (h : List.Forall₂ R as bs) (hb : b ∈ bs) : ∃ a ∈ as, R a b := by
  induction h with
  | nil => exact nomatch hb
  | cons hab _ ih =>
      rcases List.mem_cons.1 hb with rfl | hb
      · exact ⟨_, List.mem_cons_self, hab⟩
      · obtain ⟨a, ha, hab⟩ := ih hb
        exact ⟨a, List.mem_cons_of_mem _ ha, hab⟩

theorem forall₂_mem_left {a : α} (h : List.Forall₂ R as bs) (ha : a ∈ as) : ∃ b ∈ bs, R a b :=
  forall₂_mem_right h.flip ha

end Lists

/-- The data of a type without its children. -/
def TypeData.bare (d : TypeData) : TypeData :=
  { d with nestedTypes := none, fields := none, methods := none, properties := none, events := none }

variable {m : Source} {ρ ρ' : Reader}

/-! ### Where definitions come from -/

/-- A type is on record with its children. -/
def TypeFull (m : Source) (ρ : Reader) (t : TypeId) (k : Token) : Prop :=
  ∃ r, ρ.registry.types.find? (Reading.definitionIdentity m.store t) = some r ∧ r.token = k ∧
    .withChildren ≤ r.level

/-- A type of the module is on record with its children. -/
def TypeDone (m : Source) (ρ : Reader) (t : TypeId) (k : Token) : Prop :=
  m.store.Owns m.image t ∧ TypeFull m ρ t k

/-- How an entity is read: of which kind it is, its identity, its data, and its children, if it has any. -/
structure ReadingKind (ι δ : Type) [Identity ι] [NormalForm ι] where
  part : Reader.Part ι δ
  identity : Reading ι
  data : Reading δ
  children : Token → Reading Unit

/-- A member, which has no children. -/
def memberKind {δ : Type} (part : Reader.Part MemberIdentity δ) (identity : Reading MemberIdentity)
    (data : Reading δ) : ReadingKind MemberIdentity δ := ⟨part, identity, data, fun _ => throw .unexplained⟩

def fieldKind (s : Store) (f : FieldId) : ReadingKind MemberIdentity FieldData :=
  memberKind .fields (Reading.fieldIdentity s f) (Reading.fieldData s (s.fieldDef f))

def methodKind (s : Store) (f : MethodId) : ReadingKind MemberIdentity MethodData :=
  memberKind .methods (Reading.methodIdentity s f) (Reading.methodData s (s.methodDef f))

section Kinds

variable {ι δ : Type} [Identity ι] [NormalForm ι]

/-- The entity is on record with its definition. -/
def ReadingKind.Done (m : Source) (ρ : Reader) (K : ReadingKind ι δ) (k : Token) : Prop :=
  ∃ id r, Read m ρ K.identity id ∧ (K.part.ledger ρ).find? id = some r ∧ r.token = k ∧
    .definition ≤ r.level

/-- The definition has been read from the entity. -/
def ReadingKind.Gave (m : Source) (ρ : Reader) (K : ReadingKind ι δ) (id : ι) (d : δ) : Prop :=
  Read m ρ K.identity id ∧ Read m ρ K.data d

end Kinds

/-- A field of the module is on record with its definition. -/
def FieldDone (m : Source) (ρ : Reader) (f : FieldId) (k : Token) : Prop :=
  (fieldKind m.store f).Done m ρ k

/-- A method of the module is on record with its definition. -/
def MethodDone (m : Source) (ρ : Reader) (f : MethodId) (k : Token) : Prop :=
  (methodKind m.store f).Done m ρ k

/-- The children in the data are those of the type. -/
structure ChildrenRead (m : Source) (ρ : Reader) (t : TypeId) (d : TypeData) : Prop where
  nested : ∃ ks, d.nestedTypes = some ks ∧
    List.Forall₂ (TypeDone m ρ) (m.store.typeDef t).nestedTypes ks
  fields : ∃ ks, d.fields = some ks ∧ List.Forall₂ (FieldDone m ρ) (m.store.typeDef t).fields ks
  methods : ∃ ks, d.methods = some ks ∧
    List.Forall₂ (MethodDone m ρ) (m.store.typeDef t).methods ks
  properties : ∃ ps, d.properties = some ps ∧
    List.Forall₂ (fun p q => Read m ρ (Reading.property m.store p) q)
      (m.store.typeDef t).properties ps
  events : ∃ es, d.events = some es ∧
    List.Forall₂ (fun p q => Read m ρ (Reading.event m.store p) q) (m.store.typeDef t).events es

/-- The definition has been read from a type of the module, and so have its children. -/
def TypeRead (m : Source) (ρ : Reader) (id : TypeIdentity) (d : TypeData) : Prop :=
  ∃ t, m.store.Owns m.image t ∧ id = Reading.definitionIdentity m.store t ∧
    Read m ρ (Reading.typeData m.store (m.store.typeDef t)) d.bare ∧
    (d.nestedTypes.isSome → ChildrenRead m ρ t d)

/-- The definition has been read from a field of the module. -/
def FieldRead (m : Source) (ρ : Reader) (id : MemberIdentity) (d : FieldData) : Prop :=
  ∃ f, (fieldKind m.store f).Gave m ρ id d

/-- The definition has been read from a method of the module. -/
def MethodRead (m : Source) (ρ : Reader) (id : MemberIdentity) (d : MethodData) : Prop :=
  ∃ f, (methodKind m.store f).Gave m ρ id d

/-- Every definition on record has been read from the module, and a type that is on record with its children has them in its data. -/
structure Recorded (m : Source) (ρ : Reader) : Prop where
  types : ∀ {k id d}, ρ.catalog.types.get? k = some (.definition id d) → TypeRead m ρ id d
  complete : ∀ {id r}, Normal id → ρ.registry.types.find? id = some r → .withChildren ≤ r.level →
    ∃ d, ρ.catalog.types.get? r.token = some (.definition id d) ∧ d.nestedTypes.isSome
  fields : ∀ {k id d}, ρ.catalog.fields.get? k = some (.definition id d) → FieldRead m ρ id d
  methods : ∀ {k id d}, ρ.catalog.methods.get? k = some (.definition id d) → MethodRead m ρ id d

/-! ### What is read stays read -/

theorem TypeFull.grow {t : TypeId} {k : Token} (h : TypeFull m ρ t k) (hg : ρ.Grows ρ') :
    TypeFull m ρ' t k := by
  obtain ⟨r, hr, rfl, hl⟩ := h
  obtain ⟨r', hr', ht, hl'⟩ := hg.types _ r (definitionIdentity_normal _ _) hr
  exact ⟨r', hr', ht, Level.le_trans hl hl'⟩

theorem TypeDone.grow {t : TypeId} {k : Token} (h : TypeDone m ρ t k) (hg : ρ.Grows ρ') :
    TypeDone m ρ' t k := ⟨h.1, h.2.grow hg⟩

section Kinds

variable {ι δ : Type} [Identity ι] [NormalForm ι] {K : ReadingKind ι δ}

theorem ReadingKind.Done.grow {k : Token} (h : K.Done m ρ k) (hid : ∀ id : ι, Normal id)
    (hg : ρ.Grows ρ') : K.Done m ρ' k := by
  obtain ⟨id, r, hread, hr, rfl, hl⟩ := h
  obtain ⟨r', hr', ht, hl'⟩ := K.part.grown hg id r (hid id) hr
  exact ⟨id, r', hread.grow hg, hr', ht, Level.le_trans hl hl'⟩

theorem ReadingKind.Gave.grow {id : ι} {d : δ} (h : K.Gave m ρ id d) (hg : ρ.Grows ρ') :
    K.Gave m ρ' id d := ⟨h.1.grow hg, h.2.grow hg⟩

end Kinds

theorem FieldDone.grow {f : FieldId} {k : Token} (h : FieldDone m ρ f k) (hg : ρ.Grows ρ') :
    FieldDone m ρ' f k := ReadingKind.Done.grow h (fun _ => trivial) hg

theorem MethodDone.grow {f : MethodId} {k : Token} (h : MethodDone m ρ f k) (hg : ρ.Grows ρ') :
    MethodDone m ρ' f k := ReadingKind.Done.grow h (fun _ => trivial) hg

theorem ChildrenRead.grow {t : TypeId} {d : TypeData} (h : ChildrenRead m ρ t d)
    (hg : ρ.Grows ρ') : ChildrenRead m ρ' t d := by
  obtain ⟨⟨ns, hn, hns⟩, ⟨fs, hf, hfs⟩, ⟨ms, hm, hms⟩, ⟨ps, hp, hps⟩, ⟨es, he, hes⟩⟩ := h
  exact ⟨⟨ns, hn, hns.imp fun _ _ h => h.grow hg⟩, ⟨fs, hf, hfs.imp fun _ _ h => h.grow hg⟩,
    ⟨ms, hm, hms.imp fun _ _ h => h.grow hg⟩, ⟨ps, hp, hps.imp fun _ _ h => h.grow hg⟩,
    ⟨es, he, hes.imp fun _ _ h => h.grow hg⟩⟩

theorem TypeRead.grow {id : TypeIdentity} {d : TypeData} (h : TypeRead m ρ id d)
    (hg : ρ.Grows ρ') : TypeRead m ρ' id d := by
  obtain ⟨t, hi, hid, hd, hc⟩ := h
  exact ⟨t, hi, hid, hd.grow hg, fun hn => (hc hn).grow hg⟩

theorem FieldRead.grow {id : MemberIdentity} {d : FieldData} (h : FieldRead m ρ id d)
    (hg : ρ.Grows ρ') : FieldRead m ρ' id d := h.imp fun _ h => h.grow hg

theorem MethodRead.grow {id : MemberIdentity} {d : MethodData} (h : MethodRead m ρ id d)
    (hg : ρ.Grows ρ') : MethodRead m ρ' id d := h.imp fun _ h => h.grow hg

/-- Where nothing is defined, the definitions come from where they came from. -/
theorem Recorded.plain (h : Recorded m ρ) (hg : ρ.Grows ρ') (hp : ρ.Plain ρ') (hs : Sound m ρ') :
    Recorded m ρ' where
  types hk := (h.types (hp.types hk)).grow hg
  complete {id r} hid hr hl := by
    have hr₀ := hp.levels hid hr (Level.le_trans (by decide) hl)
    obtain ⟨d, hd, hn⟩ := h.complete hid hr₀ hl
    obtain ⟨e, he, rfl, hdef⟩ := hs.types.found _ r hid hr
    cases e with
    | reference id => exact absurd (hdef.2 (Level.le_trans (by decide) hl)) Bool.false_ne_true
    | definition id d' =>
        obtain rfl : d' = d := by
          have := hp.types he
          rw [hd] at this
          cases this
          rfl
        exact ⟨d', he, hn⟩
  fields hk := (h.fields (hp.fields hk)).grow hg
  methods hk := (h.methods (hp.methods hk)).grow hg

/-! ### Computations that record -/

/-- From a sound state with everything on record read from the module, the computation goes to another, loses nothing, and its result is as it should be. -/
def Records (m : Source) {α : Type} (x : Reading α) (Q : Reader → α → Prop) : Prop :=
  ∀ {ρ a ρ'}, Sound m ρ → Recorded m ρ → Gives x ρ a ρ' →
    Sound m ρ' ∧ Recorded m ρ' ∧ ρ.Grows ρ' ∧ Q ρ' a

namespace Records

variable {α β : Type}

theorem of_steady {x : Reading α} (hx : Steady m x) : Records m x fun ρ a => Read m ρ x a := by
  intro ρ a ρ' hs hr h
  have hg := hx.grows hs h
  exact ⟨hx.sound hs h, hr.plain hg (hx.plain hs h) (hx.sound hs h), hg, .of_gives hs h⟩

theorem imp {x : Reading α} {Q R : Reader → α → Prop} (hx : Records m x Q)
    (h : ∀ {ρ a}, Q ρ a → R ρ a) : Records m x R := by
  intro ρ a ρ' hs hr hg
  obtain ⟨hs', hr', hgr, hq⟩ := hx hs hr hg
  exact ⟨hs', hr', hgr, h hq⟩

theorem mapM {f : α → Reading β} {Q : α → Reader → β → Prop} {as : List α}
    (hf : ∀ a ∈ as, Records m (f a) (Q a))
    (hQ : ∀ {a ρ ρ' b}, Q a ρ b → ρ.Grows ρ' → Q a ρ' b) :
    Records m (as.mapM f) fun ρ bs => List.Forall₂ (fun a b => Q a ρ b) as bs := by
  induction as with
  | nil =>
      intro ρ bs ρ' hs hr h
      obtain ⟨rfl, rfl⟩ := gives_mapM_nil.1 h
      exact ⟨hs, hr, .refl _, .nil⟩
  | cons a as ih =>
      intro ρ bs ρ' hs hr h
      obtain ⟨b, ρ₁, bs', hb, hbs, rfl⟩ := gives_mapM_cons.1 h
      obtain ⟨hs₁, hr₁, hg₁, hq⟩ := hf a List.mem_cons_self hs hr hb
      obtain ⟨hs₂, hr₂, hg₂, hqs⟩ := ih (fun a' ha' => hf a' (List.mem_cons_of_mem a ha')) hs₁ hr₁ hbs
      exact ⟨hs₂, hr₂, hg₁.trans hg₂, .cons (hQ hq hg₂) hqs⟩

end Records

/-! ### Putting definitions on record -/

/-- What is defined where it was not defined before is put on record and stored. -/
theorem RegisterStep.own_of_undefined {named named' : Bool} {ι δ : Type} [Identity ι] [NormalForm ι]
    {l₀ l l' : Ledger ι} {t₀ : TokenMap named (Entity ι δ)} {t t' : TokenMap named' (Entity ι δ)}
    {id : ι} {d : δ} {u : Registered} (h : RegisterStep l t (.definition id d) .definition u l' t')
    (books₀ : Books l₀ t₀) (books : Books l t)
    (plain : ∀ {k id d}, t.get? k = some (.definition id d) → t₀.get? k = some (.definition id d))
    (hid : Normal id) (undefined : ∀ r, l₀.find? id = some r → ¬ .definition ≤ r.level) :
    l'.find? id = some ⟨u.token, .definition⟩ ∧ t'.get? u.token = some (.definition id d) := by
  rcases h.own with ⟨-, -, r, hr, -, hl⟩ | own
  · -- there would have been a definition before
    obtain ⟨r₀, hr₀, hl₀⟩ := books₀.defined_before books plain hid hr hl
    exact absurd hl₀ (undefined r₀ hr₀)
  · exact own

section Define

variable {u : Registered} {level : Level}

/-- A definition of a type that has been read can be put on record. -/
theorem records_typeDefinition {id : TypeIdentity} {d : TypeData} (hs : Sound m ρ)
    (hr : Recorded m ρ) (hid : Normal id) (hl : .definition ≤ level)
    (hd : TypeRead m ρ id d) (hc : .withChildren ≤ level → d.nestedTypes.isSome)
    (h : Gives (Reading.registerType (.definition id d) level) ρ u ρ') :
    Sound m ρ' ∧ Recorded m ρ' ∧ ρ.Grows ρ' ∧
      ∃ r, ρ'.registry.types.find? id = some r ∧ r.token = u.token ∧ level ≤ r.level := by
  obtain ⟨l, t, step, rfl⟩ := step_of_registerType (e := .definition id d) hs hid h
  have hbooks := step.books hs.types hid (Level.le_trans (by decide) hl)
    ⟨fun _ => hl, fun _ => rfl⟩
  have hg : ρ.Grows { ρ with
      registry := { ρ.registry with types := l }, catalog := { ρ.catalog with types := t } } :=
    ⟨step.grows hs.types hid, .refl _, .refl _, fun h => h, fun h => h⟩
  refine ⟨⟨hs.image, hs.options, hbooks, hs.fields, hs.methods⟩, ⟨?_, ?_, ?_, ?_⟩, hg, step.recorded⟩
  · intro k id' d' hk
    rcases step.stored hk with hk | ⟨-, he⟩
    · exact (hr.types hk).grow hg
    · cases he
      exact hd.grow hg
  · intro id' r hid' hr' hl'
    by_cases hne : id = id'
    · subst hne
      rcases step.own with ⟨rfl, rfl, -⟩ | ⟨hown, hk⟩
      · exact hr.complete hid hr' hl'
      · rw [Entity.identity] at hown
        cases hr'.symm.trans hown
        exact ⟨d, hk, hc hl'⟩
    · -- the token is that of another type, whose entity stays
      have hr₀ : ρ.registry.types.find? id' = some r := by
        rw [← step.find?_of_ne hs.types hid hid' hne]
        exact hr'
      obtain ⟨d', hk, hn⟩ := hr.complete hid' hr₀ hl'
      obtain ⟨v, hv, htok, -⟩ := step.recorded
      have htoken : r.token ≠ u.token := fun heq =>
        hne (hbooks.inj hid hid' hv hr' (htok.trans heq.symm))
      exact ⟨d', step.kept_of_ne hk htoken, hn⟩
  · exact fun hk => (hr.fields hk).grow hg
  · exact fun hk => (hr.methods hk).grow hg

theorem records_reference {ι δ : Type} [Identity ι] [NormalForm ι] (P : Reader.Part ι δ) {id : ι}
    (hs : Sound m ρ) (hr : Recorded m ρ) (hid : Normal id)
    (h : Gives (P.register (.reference id) .reference) ρ u ρ') :
    Sound m ρ' ∧ Recorded m ρ' ∧ ρ.Grows ρ' ∧
      ∃ r, (P.ledger ρ').find? id = some r ∧ r.token = u.token ∧ r.level = u.oldLevel := by
  have ht : Gives (P.reference id) ρ u.token ρ' := gives_bind_pure.2 ⟨u, h, rfl⟩
  obtain ⟨hs', hr', hg, -⟩ := Records.of_steady (P.steady_reference hid) hs hr ht
  obtain ⟨l, t, step, rfl⟩ := P.step (e := .reference id) hs hid h
  rw [P.ledger_put]
  exact ⟨hs', hr', hg, step.level_eq (P.books hs) hid⟩

end Define

/-! ### Members -/

namespace ReadingKind

variable {δ : Type} {K : ReadingKind MemberIdentity δ} {u v : Registered} {id : MemberIdentity} {d : δ}

/-- What is needed of a member: it is read steadily, its kind keeps its definitions, and a definition that has been read from it may be put on record. -/
structure Recording (m : Source) (K : ReadingKind MemberIdentity δ) : Prop where
  identity : Steady m K.identity
  data : Steady m K.data
  kept : ∀ {ρ ρ'}, ρ.Grows ρ' → ∀ {k id d}, (K.part.entities ρ).get? k = some (.definition id d) →
    (K.part.entities ρ').get? k = some (.definition id d)
  recorded : ∀ {ρ l t}, Recorded m ρ → ρ.Grows (K.part.put ρ l t) →
    (∀ {k id d}, t.get? k = some (.definition id d) →
      (K.part.entities ρ).get? k = some (.definition id d) ∨ K.Gave m (K.part.put ρ l t) id d) →
        Recorded m (K.part.put ρ l t)

/-- A definition that has been read can be put on record. -/
theorem Recording.records_definition (law : K.Recording m) (hs : Sound m ρ) (hr : Recorded m ρ)
    (hd : K.Gave m ρ id d) (h : Gives (K.part.register (.definition id d) .definition) ρ u ρ') :
    Sound m ρ' ∧ Recorded m ρ' ∧ ρ.Grows ρ' ∧
      ∃ r, (K.part.ledger ρ').find? id = some r ∧ r.token = u.token ∧ .definition ≤ r.level := by
  obtain ⟨l, t, step, rfl⟩ := K.part.step (e := .definition id d) hs trivial h
  have books := K.part.books hs
  have hg : ρ.Grows (K.part.put ρ l t) := K.part.grows (step.grows books trivial) fun h =>
    step.kept_definition books trivial (Level.le_refl _) h
  refine ⟨K.part.sound hs (step.books books trivial (by decide) ⟨fun _ => Level.le_refl _, fun _ => rfl⟩),
    law.recorded hr hg fun hk => ?_, hg, (K.part.ledger_put ρ l t).symm ▸ step.recorded⟩
  rcases step.stored hk with hk | ⟨-, he⟩
  · exact .inl hk
  · cases he
    exact .inr (hd.grow hg)

/-- A definition that is read where there has been none is stored. -/
theorem Recording.stored_definition {ρ₁ ρ₂ : Reader} (law : K.Recording m) (hs : Sound m ρ)
    (hu : Gives (K.part.register (.reference id) .reference) ρ u ρ₁)
    (hnew : ¬ .definition ≤ u.oldLevel) (hd : Gives K.data ρ₁ d ρ₂)
    (hv : Gives (K.part.register (.definition id d) .definition) ρ₂ v ρ') :
    (K.part.entities ρ').get? v.token = some (.definition id d) := by
  have ht : Gives (K.part.reference id) ρ u.token ρ₁ := gives_bind_pure.2 ⟨u, hu, rfl⟩
  have hs₁ := (K.part.steady_reference trivial).sound hs ht
  have hs₂ := law.data.sound hs₁ hd
  have undefined : ∀ r, (K.part.ledger ρ₁).find? id = some r → ¬ .definition ≤ r.level := by
    obtain ⟨l, t, step, rfl⟩ := K.part.step (e := .reference id) hs trivial hu
    obtain ⟨r, hr, -, hl⟩ := step.level_eq (K.part.books hs) trivial
    rw [K.part.ledger_put]
    intro r' hr'
    cases hr.symm.trans hr'
    rwa [hl]
  obtain ⟨l, t, step, rfl⟩ := K.part.step (e := .definition id d) hs₂ trivial hv
  rw [K.part.get?_put]
  exact (step.own_of_undefined (K.part.books hs₁) (K.part.books hs₂)
    (K.part.undefined (law.data.plain hs₁ hd)) trivial undefined).2

/-- Reads a member at a level. -/
def member (K : ReadingKind MemberIdentity δ) (level : Level) : Reading Token := do
  Reading.checkLevel .definition level
  let id ← K.identity
  let u ← K.part.register (.reference id) .reference
  if level ≤ u.oldLevel then return u.token
  let data ← K.data
  return (← K.part.register (.definition id data) .definition).token

/-- What reading a member at the level of a definition comes to. -/
theorem member_definition (K : ReadingKind MemberIdentity δ) : K.member .definition = do
    let id ← K.identity
    let u ← K.part.register (.reference id) .reference
    if .definition ≤ u.oldLevel then return u.token else
      let data ← K.data
      return (← K.part.register (.definition id data) .definition).token := by
  unfold member
  rw [show Reading.checkLevel .definition .definition = pure () from if_neg (by decide)]
  rfl

theorem Recording.records (law : K.Recording m) :
    Records m (K.member .definition) fun ρ k => K.Done m ρ k := by
  intro ρ k ρ' hs hr h
  rw [member_definition] at h
  obtain ⟨id, ρ₁, hid, h⟩ := gives_bind.1 h
  obtain ⟨hs₁, hr₁, hg₁, hread⟩ := Records.of_steady law.identity hs hr hid
  obtain ⟨u, ρ₂, hu, h⟩ := gives_bind.1 h
  obtain ⟨hs₂, hr₂, hg₂, r, hf, ht, hl⟩ := records_reference K.part hs₁ hr₁ trivial hu
  split at h
  · next hle =>
      obtain ⟨rfl, rfl⟩ := gives_pure.1 h
      exact ⟨hs₂, hr₂, hg₁.trans hg₂, id, r, hread.grow hg₂, hf, ht, hl.symm ▸ hle⟩
  · obtain ⟨d, ρ₃, hd, h⟩ := gives_bind.1 h
    obtain ⟨hs₃, hr₃, hg₃, hdata⟩ := Records.of_steady law.data hs₂ hr₂ hd
    obtain ⟨v, hv, rfl⟩ := gives_bind_pure.1 h
    have hid₃ := hread.grow (hg₂.trans hg₃)
    obtain ⟨hs₄, hr₄, hg₄, r', hf', ht', hl'⟩ := law.records_definition hs₃ hr₃ ⟨hid₃, hdata⟩ hv
    exact ⟨hs₄, hr₄, hg₁.trans (hg₂.trans (hg₃.trans hg₄)), id, r', hid₃.grow hg₄, hf', ht', hl'⟩

end ReadingKind

theorem fieldKind_recording (f : FieldId) : (fieldKind m.store f).Recording m where
  identity := .fieldIdentity _ _
  data := .fieldData _ _
  kept hg _ _ _ hk := hg.fieldData hk
  recorded hr hg hd :=
    ⟨fun hk => (hr.types hk).grow hg, hr.complete,
      fun hk => (hd hk).elim (fun hk => (hr.fields hk).grow hg) fun h => ⟨f, h⟩,
      fun hk => (hr.methods hk).grow hg⟩

theorem methodKind_recording (f : MethodId) : (methodKind m.store f).Recording m where
  identity := .methodIdentity _ _
  data := .methodData _ _
  kept hg _ _ _ hk := hg.methodData hk
  recorded hr hg hd :=
    ⟨fun hk => (hr.types hk).grow hg, hr.complete, fun hk => (hr.fields hk).grow hg,
      fun hk => (hd hk).elim (fun hk => (hr.methods hk).grow hg) fun h => ⟨f, h⟩⟩

theorem field_records (f : FieldId) :
    Records m (Reading.field m.store (some f) .definition) fun ρ k => FieldDone m ρ f k :=
  (fieldKind_recording f).records

theorem method_records (f : MethodId) :
    Records m (Reading.method m.store (some f) .definition) fun ρ k => MethodDone m ρ f k :=
  (methodKind_recording f).records

theorem fields_records (fs : List FieldId) :
    Records m (Reading.fields m.store (fs.map some) .definition) fun ρ ks =>
      List.Forall₂ (FieldDone m ρ) fs ks := by
  unfold Reading.fields
  rw [List.mapM_map]
  exact Records.mapM (fun f _ => field_records f) fun h hg => h.grow hg

theorem methods_records (fs : List MethodId) :
    Records m (Reading.methods m.store (fs.map some) .definition) fun ρ ks =>
      List.Forall₂ (MethodDone m ρ) fs ks := by
  unfold Reading.methods
  rw [List.mapM_map]
  exact Records.mapM (fun f _ => method_records f) fun h hg => h.grow hg

/-! ### Types -/

/-- What putting the children of a type on record comes to. -/
theorem gives_children {s : Store} {t : TypeId} {k : Token} {ks : List Token} {u : Unit} :
    Gives (Reading.children s t k ks) ρ u ρ' ↔
      ∃ fs ρ₁ ms ρ₂ ps ρ₃ es ρ₄ id d v,
        Gives (Reading.fields s ((s.typeDef t).fields.map some) .definition) ρ fs ρ₁ ∧
        Gives (Reading.methods s ((s.typeDef t).methods.map some) .definition) ρ₁ ms ρ₂ ∧
        Gives ((s.typeDef t).properties.mapM (Reading.property s)) ρ₂ ps ρ₃ ∧
        Gives ((s.typeDef t).events.mapM (Reading.event s)) ρ₃ es ρ₄ ∧
        ρ₄.catalog.types.get? k = some (.definition id d) ∧
        Gives (Reading.registerType (.definition id { d with
          nestedTypes := some ks, fields := some fs, methods := some ms, properties := some ps,
          events := some es }) .withChildren) ρ₄ v ρ' := by
  unfold Reading.children
  constructor
  · intro h
    obtain ⟨fs, ρ₁, hfs, h⟩ := gives_bind.1 h
    obtain ⟨ms, ρ₂, hms, h⟩ := gives_bind.1 h
    obtain ⟨ps, ρ₃, hps, h⟩ := gives_bind.1 h
    obtain ⟨es, ρ₄, hes, h⟩ := gives_bind.1 h
    -- the definition that was put on record before its members is read back from the catalog
    obtain ⟨_, _, hg, hlast⟩ := gives_bind.1 h
    obtain ⟨rfl, rfl⟩ := gives_get.1 hg
    split at hlast
    · exact absurd hlast gives_throw
    · next _ e he =>
        obtain ⟨d, _, hd, hreg⟩ := gives_bind.1 hlast
        obtain ⟨hd, rfl⟩ := gives_ofExcept.1 hd
        obtain ⟨v, _, hv, hp⟩ := gives_bind.1 hreg
        obtain ⟨-, rfl⟩ := gives_pure.1 hp
        have hk := TokenMap.get?_of_get he
        cases e with
        | reference id => exact nomatch hd
        | definition id d' =>
            cases hd
            exact ⟨fs, ρ₁, ms, ρ₂, ps, ρ₃, es, _, id, d, v, hfs, hms, hps, hes, hk, hv⟩
  · rintro ⟨fs, ρ₁, ms, ρ₂, ps, ρ₃, es, ρ₄, id, d, v, hfs, hms, hps, hes, hk, hv⟩
    refine gives_bind.2 ⟨fs, ρ₁, hfs, gives_bind.2 ⟨ms, ρ₂, hms, gives_bind.2 ⟨ps, ρ₃, hps,
      gives_bind.2 ⟨es, ρ₄, hes, gives_bind.2 ⟨ρ₄, ρ₄, gives_get.2 ⟨rfl, rfl⟩, ?_⟩⟩⟩⟩⟩
    have hget : ρ₄.catalog.types.get k = .ok (.definition id d) := by
      rw [TokenMap.get, hk]
    rw [hget]
    exact gives_bind.2 ⟨d, ρ₄, gives_ofExcept.2 ⟨rfl, rfl⟩,
      gives_bind.2 ⟨v, ρ', hv, gives_pure.2 ⟨rfl, rfl⟩⟩⟩

/-- Reading the definition of a type puts it on record, unless it has been there before. -/
def DefinesType (s : Store) (t : TypeId) (old : Level) (ρ ρ' : Reader) : Prop :=
  (old < .definition ∧ ∃ d ρ₁ v, Gives (Reading.typeData s (s.typeDef t)) ρ d ρ₁ ∧
    Gives (Reading.registerType (.definition (Reading.definitionIdentity s t) d) .definition)
      ρ₁ v ρ') ∨
  (¬ old < .definition ∧ ρ' = ρ)

/-- What reading a type with its children comes to. -/
theorem gives_typeWithin {s : Store} {n : Nat} {t : TypeId} {k : Token} :
    Gives (Reading.typeWithin s (n + 1) (some t) .withChildren) ρ k ρ' ↔
      (s.typeDef t).image = ρ.image ∧ ∃ u ρ₁,
        Gives (Reading.registerType (.reference (Reading.definitionIdentity s t)) .reference)
          ρ u ρ₁ ∧ k = u.token ∧
        (.withChildren ≤ u.oldLevel ∧ ρ' = ρ₁ ∨
          ¬ .withChildren ≤ u.oldLevel ∧ ∃ ρ₂ ks ρ₃ v, DefinesType s t u.oldLevel ρ₁ ρ₂ ∧
            Gives ((s.typeDef t).nestedTypes.mapM fun i =>
              Reading.typeWithin s n (some i) .withChildren) ρ₂ ks ρ₃ ∧
            Gives (Reading.children s t u.token ks) ρ₃ v ρ') := by
  have level : ¬ Level.withChildren ≤ .definition := by decide
  rw [Reading.typeWithin,
    show Reading.checkLevel .withChildren .withChildren = pure () from if_neg (by decide), pure_bind]
  simp only [level, if_false]
  constructor
  · intro h
    obtain ⟨_, ρ₀, hc, hr⟩ := gives_bind.1 h
    obtain ⟨hi, hρ⟩ := gives_checkType.1 hc
    subst hρ
    obtain ⟨u, ρ₁, hu, hl⟩ := gives_bind.1 hr
    refine ⟨hi, u, ρ₁, hu, ?_⟩
    split at hl
    · next hle =>
        obtain ⟨hk, hρ⟩ := gives_pure.1 hl
        exact ⟨hk, .inl ⟨hle, hρ⟩⟩
    · next hle =>
        -- what follows the definition is the same whether the type is defined now or has been before
        have rest : ∀ {ρ₂}, Gives (do
            let ks ← (s.typeDef t).nestedTypes.mapM fun i =>
              Reading.typeWithin s n (some i) .withChildren
            Reading.children s t u.token ks
            return u.token) ρ₂ k ρ' →
            k = u.token ∧ ∃ ks ρ₃ v, Gives ((s.typeDef t).nestedTypes.mapM fun i =>
              Reading.typeWithin s n (some i) .withChildren) ρ₂ ks ρ₃ ∧
            Gives (Reading.children s t u.token ks) ρ₃ v ρ' := by
          intro ρ₂ h
          obtain ⟨ks, ρ₃, hks, hlast⟩ := gives_bind.1 h
          obtain ⟨v, ρ₄, hv, hp⟩ := gives_bind.1 hlast
          obtain ⟨rfl, rfl⟩ := gives_pure.1 hp
          exact ⟨rfl, ks, ρ₃, v, hks, hv⟩
        split at hl
        · next hlt =>
            obtain ⟨d, ρ_d, hd, hr⟩ := gives_bind.1 hl
            obtain ⟨v, ρ₂, hv, hr'⟩ := gives_bind.1 hr
            obtain ⟨hk, ks, ρ₃, w, hks, hw⟩ := rest hr'
            exact ⟨hk, .inr ⟨hle, ρ₂, ks, ρ₃, w, .inl ⟨hlt, d, ρ_d, v, hd, hv⟩, hks, hw⟩⟩
        · next hlt =>
            obtain ⟨hk, ks, ρ₃, w, hks, hw⟩ := rest hl
            exact ⟨hk, .inr ⟨hle, ρ₁, ks, ρ₃, w, .inr ⟨hlt, rfl⟩, hks, hw⟩⟩
  · rintro ⟨hi, u, ρ₁, hu, rfl, h⟩
    refine gives_bind.2 ⟨⟨⟩, ρ, gives_checkType.2 ⟨hi, rfl⟩, gives_bind.2 ⟨u, ρ₁, hu, ?_⟩⟩
    obtain ⟨hle, rfl⟩ | ⟨hle, ρ₂, ks, ρ₃, v, hdef, hks, hv⟩ := h
    · rw [if_pos hle]
      exact gives_pure.2 ⟨rfl, rfl⟩
    · rw [if_neg hle]
      have rest : Gives (do
          let ks ← (s.typeDef t).nestedTypes.mapM fun i =>
            Reading.typeWithin s n (some i) .withChildren
          Reading.children s t u.token ks
          return u.token) ρ₂ u.token ρ' :=
        gives_bind.2 ⟨ks, ρ₃, hks, gives_bind.2 ⟨v, ρ', hv, gives_pure.2 ⟨rfl, rfl⟩⟩⟩
      obtain ⟨hlt, d, ρ_d, w, hd, hw⟩ | ⟨hlt, rfl⟩ := hdef
      · rw [if_pos hlt]
        exact gives_bind.2 ⟨d, ρ_d, hd, gives_bind.2 ⟨w, ρ₂, hw, rest⟩⟩
      · rw [if_neg hlt]
        exact rest

theorem typeData_bare {s : Store} {d : TypeDef} {data : TypeData}
    (h : Gives (Reading.typeData s d) ρ data ρ') : data.bare = data := by
  have rest : ∀ {b ρ₀}, Gives (do
      let interfaces ← Reading.typeTrees s d.interfaces
      let genericParameters ← Reading.genericParameters s d.genericParams
      let customAttributes ← Reading.customAttributes s d.customAttributes
      return ({
        attributes := d.attributes.toInt32
        baseType := b, genericParameters, customAttributes
        interfaces := Reading.nonempty interfaces
        layout := d.layout.map fun l => ⟨Int32.ofNat l.packingSize.toNat, l.classSize.toInt32⟩
        nestedTypes := none, fields := none, methods := none, properties := none,
        events := none } : TypeData)) ρ₀ data ρ' → data.bare = data := by
    intro b ρ₀ h
    obtain ⟨_, _, -, h⟩ := gives_bind.1 h
    obtain ⟨_, _, -, h⟩ := gives_bind.1 h
    obtain ⟨_, _, -, h⟩ := gives_bind.1 h
    rw [(gives_pure.1 h).1]
    rfl
  unfold Reading.typeData at h
  split at h
  · obtain ⟨b, _, -, h⟩ := gives_bind.1 h
    exact rest h
  · obtain ⟨b, _, -, h⟩ := gives_bind.1 h
    exact rest h

/-- The definition of a type can be put on record. -/
theorem definesType_records {t : TypeId} {old : Level} (ht : m.store.Owns m.image t)
    (hs : Sound m ρ) (hr : Recorded m ρ) (h : DefinesType m.store t old ρ ρ') :
    Sound m ρ' ∧ Recorded m ρ' ∧ ρ.Grows ρ' := by
  obtain ⟨-, d, ρ₁, v, hd, hv⟩ | ⟨-, rfl⟩ := h
  · obtain ⟨hs₁, hr₁, hg₁, hdata⟩ := Records.of_steady (Steady.typeData _ _) hs hr hd
    have hbare := typeData_bare hd
    have hread : TypeRead m ρ₁ (Reading.definitionIdentity m.store t) d :=
      ⟨t, ht, rfl, by rwa [hbare], fun hn => by rw [← hbare] at hn; exact nomatch hn⟩
    obtain ⟨hs', hr', hg', -⟩ := records_typeDefinition hs₁ hr₁ (definitionIdentity_normal _ t)
      (Level.le_refl _) hread (fun h => absurd h (by decide)) hv
    exact ⟨hs', hr', hg₁.trans hg'⟩
  · exact ⟨hs, hr, .refl _⟩

/-- The children of a type whose definition is on record can be put on record. -/
theorem children_records (hm : m.Regular) {t : TypeId} {k : Token} {ks : List Token}
    (ht : m.store.Owns m.image t) (hs : Sound m ρ) (hr : Recorded m ρ)
    (hk : ∃ r, ρ.registry.types.find? (Reading.definitionIdentity m.store t) = some r ∧ r.token = k)
    (hks : List.Forall₂ (TypeDone m ρ) (m.store.typeDef t).nestedTypes ks) {u : Unit}
    (h : Gives (Reading.children m.store t k ks) ρ u ρ') :
    Sound m ρ' ∧ Recorded m ρ' ∧ ρ.Grows ρ' ∧ TypeDone m ρ' t k := by
  obtain ⟨fs, ρ₁, ms, ρ₂, ps, ρ₃, es, ρ₄, id, d, v, hfs, hms, hps, hes, hget, hv⟩ :=
    gives_children.1 h
  obtain ⟨hs₁, hr₁, hg₁, hfs⟩ := fields_records _ hs hr hfs
  obtain ⟨hs₂, hr₂, hg₂, hms⟩ := methods_records _ hs₁ hr₁ hms
  obtain ⟨hs₃, hr₃, hg₃, hps⟩ := Records.of_steady (.mapM _ (Steady.property _)) hs₂ hr₂ hps
  obtain ⟨hs₄, hr₄, hg₄, hes⟩ := Records.of_steady (.mapM _ (Steady.event _)) hs₃ hr₃ hes
  have hg : ρ.Grows ρ₄ := hg₁.trans (hg₂.trans (hg₃.trans hg₄))
  -- the entity under the token is the definition of the type
  obtain ⟨r, hr', rfl⟩ := hk
  have hnorm := definitionIdentity_normal m.store t
  obtain ⟨r', hr', htok, -⟩ := hg.types _ r hnorm hr'
  obtain ⟨e, he, hid, -⟩ := hs₄.types.found _ r' hnorm hr'
  rw [htok, hget] at he
  cases he
  obtain rfl : id = Reading.definitionIdentity m.store t := hid
  obtain ⟨t', ht', hid', hdata, -⟩ := hr₄.types hget
  obtain rfl := hm.distinct (.own ht') (.own ht) hid'.symm
  have hchildren : ChildrenRead m ρ₄ t' { d with
      nestedTypes := some ks, fields := some fs, methods := some ms, properties := some ps,
      events := some es } :=
    ⟨⟨ks, rfl, hks.imp fun _ _ h => h.grow hg⟩,
      ⟨fs, rfl, hfs.imp fun _ _ h => h.grow (hg₂.trans (hg₃.trans hg₄))⟩,
      ⟨ms, rfl, hms.imp fun _ _ h => h.grow (hg₃.trans hg₄)⟩,
      ⟨ps, rfl, (hps.of_mapM (Steady.property _)).imp fun _ _ h => h.grow hg₄⟩,
      ⟨es, rfl, hes.of_mapM (Steady.event _)⟩⟩
  have hread : TypeRead m ρ₄ (Reading.definitionIdentity m.store t') { d with
      nestedTypes := some ks, fields := some fs, methods := some ms, properties := some ps,
      events := some es } := ⟨t', ht', rfl, hdata, fun _ => hchildren⟩
  obtain ⟨hs₅, hr₅, hg₅, w, hw, hwt, hwl⟩ :=
    records_typeDefinition hs₄ hr₄ hnorm (show Level.definition ≤ .withChildren by decide) hread
      (fun _ => rfl) hv
  obtain ⟨w', hw', hwt', -⟩ := hg₅.types _ r' hnorm hr'
  cases hw.symm.trans hw'
  exact ⟨hs₅, hr₅, hg.trans hg₅, ht, w, hw, hwt'.trans htok, hwl⟩

theorem typeWithin_records (hm : m.Regular) (n : Nat) {t : TypeId}
    (ht : t.index < m.store.typeDefs.length) :
    Records m (Reading.typeWithin m.store n (some t) .withChildren) fun ρ k => TypeDone m ρ t k := by
  induction n generalizing t with
  | zero => exact fun _ _ h => absurd h gives_throw
  | succ n ih =>
      intro ρ k ρ' hs hr h
      obtain ⟨hi, u, ρ₁, hu, rfl, hrest⟩ := gives_typeWithin.1 h
      rw [hs.image] at hi
      have hown : m.store.Owns m.image t := ⟨ht, hi⟩
      have hnorm := definitionIdentity_normal m.store t
      obtain ⟨hs₁, hr₁, hg₁, r, hf, ht, hl⟩ := records_reference .types hs hr hnorm hu
      obtain ⟨hle, rfl⟩ | ⟨-, ρ₂, ks, ρ₃, v, hdef, hks, hv⟩ := hrest
      · exact ⟨hs₁, hr₁, hg₁, hown, r, hf, ht, hl.symm ▸ hle⟩
      · obtain ⟨hs₂, hr₂, hg₂⟩ := definesType_records hown hs₁ hr₁ hdef
        obtain ⟨hs₃, hr₃, hg₃, hks⟩ :=
          Records.mapM
          (fun i hi => ih (hm.nested_there hown hi)) (fun h hg => h.grow hg) hs₂ hr₂ hks
        obtain ⟨r', hf', ht', -⟩ := (hg₂.trans hg₃).types _ r hnorm hf
        obtain ⟨hs', hr', hg', hdone⟩ :=
          children_records hm hown hs₃ hr₃ ⟨r', hf', ht'.trans ht⟩ hks hv
        exact ⟨hs', hr', hg₁.trans (hg₂.trans (hg₃.trans hg')), hdone⟩

/-- Reading types with their children leaves them all on record with their children. -/
theorem types_records (hm : m.Regular) {ts : List TypeId}
    (ht : ∀ t ∈ ts, t.index < m.store.typeDefs.length) :
    Records m (Reading.types m.store (ts.map some) .withChildren) fun ρ ks =>
      List.Forall₂ (TypeDone m ρ) ts ks := by
  unfold Reading.types
  rw [List.mapM_map]
  exact Records.mapM (fun t hmem => typeWithin_records hm _ (ht t hmem)) fun h hg => h.grow hg

/-- A reader that has recorded nothing. -/
theorem start_sound (m : Source) : Sound m (.start m.image m.options) :=
  ⟨rfl, rfl, books_empty, books_empty, books_empty⟩

theorem start_recorded (m : Source) : Recorded m (.start m.image m.options) :=
  ⟨nofun, nofun, nofun, nofun⟩

end CilCatalog
