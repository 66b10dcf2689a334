import CilCatalog.Proofs.Gives
import CilCatalog.Proofs.Ledger
import CilCatalog.Proofs.Live.Source
import CilCatalog.Reading.Entity

/-!
# Reading references is steady

Reading the references in a definition registers what they name and does nothing else, also where it fails half-way.  So it only adds to what is on record, and reading the same again, at any later time, gives the same and adds nothing.

* `Sound`: what is on record belongs together.
* `Reader.Refers`: the changes that registering references makes.
* `Reader.Grows`: tokens, levels and definitions of members stay; `Reader.Plain`: no definition is new.
* `Steady`: from a sound state a computation goes to a sound state in which nothing is lost and nothing is defined, and from then on it gives the same without a change.
* `Read`: a computation has given a value before, so that it would again (`Read.gives`).
-/

namespace CilCatalog

open Live

/-! ### What is on record -/

/-- What is on record belongs together. -/
structure Sound (m : Source) (ρ : Reader) : Prop where
  image : ρ.image = m.image
  options : ρ.catalog.options = m.options
  types : Books ρ.registry.types ρ.catalog.types
  fields : Books ρ.registry.fields ρ.catalog.fields
  methods : Books ρ.registry.methods ρ.catalog.methods

namespace Reader

/-- Nothing that is on record is lost, and definitions of members stay as they are. -/
structure Grows (ρ ρ' : Reader) : Prop where
  types : ρ.registry.types.Grows ρ'.registry.types
  fields : ρ.registry.fields.Grows ρ'.registry.fields
  methods : ρ.registry.methods.Grows ρ'.registry.methods
  fieldData : ∀ {t id d}, ρ.catalog.fields.get? t = some (.definition id d) →
    ρ'.catalog.fields.get? t = some (.definition id d)
  methodData : ∀ {t id d}, ρ.catalog.methods.get? t = some (.definition id d) →
    ρ'.catalog.methods.get? t = some (.definition id d)

theorem Grows.refl (ρ : Reader) : ρ.Grows ρ := ⟨.refl _, .refl _, .refl _, id, id⟩

theorem Grows.trans {ρ₁ ρ₂ ρ₃ : Reader} (h : ρ₁.Grows ρ₂) (h' : ρ₂.Grows ρ₃) : ρ₁.Grows ρ₃ :=
  ⟨h.types.trans h'.types, h.fields.trans h'.fields, h.methods.trans h'.methods,
    fun ht => h'.fieldData (h.fieldData ht), fun ht => h'.methodData (h.methodData ht)⟩

/-- No definition is new, and no type is on record at a higher level than before. -/
structure Plain (ρ ρ' : Reader) : Prop where
  types : ∀ {t id d}, ρ'.catalog.types.get? t = some (.definition id d) →
    ρ.catalog.types.get? t = some (.definition id d)
  fields : ∀ {t id d}, ρ'.catalog.fields.get? t = some (.definition id d) →
    ρ.catalog.fields.get? t = some (.definition id d)
  methods : ∀ {t id d}, ρ'.catalog.methods.get? t = some (.definition id d) →
    ρ.catalog.methods.get? t = some (.definition id d)
  levels : ∀ {id r}, Normal id → ρ'.registry.types.find? id = some r → .definition ≤ r.level →
    ρ.registry.types.find? id = some r

theorem Plain.refl (ρ : Reader) : ρ.Plain ρ := ⟨id, id, id, fun _ h _ => h⟩

theorem Plain.trans {ρ₁ ρ₂ ρ₃ : Reader} (h : ρ₁.Plain ρ₂) (h' : ρ₂.Plain ρ₃) : ρ₁.Plain ρ₃ :=
  ⟨fun ht => h.types (h'.types ht), fun ht => h.fields (h'.fields ht),
    fun ht => h.methods (h'.methods ht),
    fun hid hr hl => h.levels hid (h'.levels hid hr hl) hl⟩

/-- The second reader comes from the first by registrations of references. -/
inductive Refers : Reader → Reader → Prop
  | refl (ρ : Reader) : Refers ρ ρ
  | type {ρ ρ₁ ρ₂ : Reader} {id : TypeIdentity} {u : Registered} (h : Refers ρ ρ₁) (hid : Normal id)
      (hu : Gives (Reading.registerType (.reference id) .reference) ρ₁ u ρ₂) : Refers ρ ρ₂
  | field {ρ ρ₁ ρ₂ : Reader} {id : MemberIdentity} {u : Registered} (h : Refers ρ ρ₁)
      (hu : Gives (Reading.registerField (.reference id) .reference) ρ₁ u ρ₂) : Refers ρ ρ₂
  | method {ρ ρ₁ ρ₂ : Reader} {id : MemberIdentity} {u : Registered} (h : Refers ρ ρ₁)
      (hu : Gives (Reading.registerMethod (.reference id) .reference) ρ₁ u ρ₂) : Refers ρ ρ₂

theorem Refers.trans {ρ₁ ρ₂ ρ₃ : Reader} (h : ρ₁.Refers ρ₂) (h' : ρ₂.Refers ρ₃) : ρ₁.Refers ρ₃ := by
  induction h' with
  | refl => exact h
  | type _ hid hu ih => exact .type ih hid hu
  | field _ hu ih => exact .field ih hu
  | method _ hu ih => exact .method ih hu

end Reader

/-- Whether it succeeds or fails, the computation registers references and does nothing else. -/
def Referring {α : Type} (x : Reading α) : Prop := ∀ ρ : Reader, ρ.Refers (x ρ).2

theorem Referring.bind {α β : Type} {x : Reading α} {f : α → Reading β} (hx : Referring x)
    (hf : ∀ a, Referring (f a)) : Referring (x >>= f) := by
  intro ρ
  have first := hx ρ
  cases h : x ρ with
  | mk r ρ₁ =>
      rw [h] at first
      cases r with
      | error e =>
          rw [run_bind_error h]
          exact first
      | ok a =>
          rw [run_bind_ok h]
          exact first.trans (hf a ρ₁)

/-- Nothing is lost or defined, and reading again gives the same without a change. -/
structure Steady (m : Source) {α : Type} (x : Reading α) : Prop where
  refers : Referring x
  sound : ∀ {ρ a ρ'}, Sound m ρ → Gives x ρ a ρ' → Sound m ρ'
  grows : ∀ {ρ a ρ'}, Sound m ρ → Gives x ρ a ρ' → ρ.Grows ρ'
  plain : ∀ {ρ a ρ'}, Sound m ρ → Gives x ρ a ρ' → ρ.Plain ρ'
  stays : ∀ {ρ a ρ'}, Sound m ρ → Gives x ρ a ρ' →
    ∀ {ρ''}, ρ'.Grows ρ'' → Sound m ρ'' → Gives x ρ'' a ρ''

/-! ### Putting steady computations together -/

namespace Steady

variable {m : Source} {α β : Type}

/-- A computation that changes nothing and depends on what stays. -/
theorem of_unchanged {x : Reading α} (still : ∀ ρ, (x ρ).2 = ρ)
    (h : ∀ {ρ a ρ'}, Sound m ρ → Gives x ρ a ρ' → ∀ {ρ''}, Sound m ρ'' → Gives x ρ'' a ρ'') :
    Steady m x := by
  have same : ∀ {ρ a ρ'}, Gives x ρ a ρ' → ρ = ρ' := fun {ρ a ρ'} hx => by
    rw [← still ρ, show x ρ = (.ok a, ρ') from hx]
  refine ⟨fun ρ => ?_, fun hs hx => ?_, fun hs hx => ?_, fun hs hx => ?_, fun hs hx _ _ hs'' => ?_⟩
  · rw [still ρ]
    exact .refl ρ
  · exact same hx ▸ hs
  · exact same hx ▸ .refl _
  · exact same hx ▸ .refl _
  · exact h hs hx hs''

theorem pure (a : α) : Steady m (pure a : Reading α) :=
  of_unchanged (fun _ => rfl) fun _ hx _ _ => gives_pure.2 ⟨(gives_pure.1 hx).1, rfl⟩

theorem throw (f : Failure ReadFault) : Steady m (throw f : Reading α) :=
  of_unchanged (fun _ => rfl) fun _ hx => absurd hx gives_throw

theorem refuse (f : ReadFault) : Steady m (Reading.refuse f : Reading α) := throw _

theorem ofExcept (r : Except (Failure ReadFault) α) :
    Steady m (MonadExcept.ofExcept r : Reading α) := by
  cases r with
  | ok a => exact pure a
  | error e => exact throw e

theorem bind {x : Reading α} {f : α → Reading β} (hx : Steady m x) (hf : ∀ a, Steady m (f a)) :
    Steady m (x >>= f) where
  refers := hx.refers.bind fun a => (hf a).refers
  sound hs h := by
    obtain ⟨a, ρ₁, ha, hb⟩ := gives_bind.1 h
    exact (hf a).sound (hx.sound hs ha) hb
  grows hs h := by
    obtain ⟨a, ρ₁, ha, hb⟩ := gives_bind.1 h
    exact (hx.grows hs ha).trans ((hf a).grows (hx.sound hs ha) hb)
  plain hs h := by
    obtain ⟨a, ρ₁, ha, hb⟩ := gives_bind.1 h
    exact (hx.plain hs ha).trans ((hf a).plain (hx.sound hs ha) hb)
  stays hs h ρ'' hg hs'' := by
    obtain ⟨a, ρ₁, ha, hb⟩ := gives_bind.1 h
    have hs₁ := hx.sound hs ha
    have hg₁ := ((hf a).grows hs₁ hb).trans hg
    exact gives_bind.2 ⟨a, ρ'', hx.stays hs ha hg₁ hs'', (hf a).stays hs₁ hb hg hs''⟩

theorem map {x : Reading α} (hx : Steady m x) (f : α → β) : Steady m (f <$> x) := by
  rw [map_eq_pure_bind]
  exact hx.bind fun a => pure (f a)

theorem ite {p : Prop} [Decidable p] {x y : Reading α} (hx : Steady m x) (hy : Steady m y) :
    Steady m (if p then x else y) := by
  split
  · exact hx
  · exact hy

theorem mapM {f : α → Reading β} (as : List α) (h : ∀ a, Steady m (f a)) :
    Steady m (as.mapM f) := by
  induction as with
  | nil => exact pure []
  | cons a as ih =>
      rw [List.mapM_cons]
      exact (h a).bind fun b => ih.bind fun bs => pure (b :: bs)

theorem option_mapM {f : α → Reading β} (o : Option α) (h : ∀ a, Steady m (f a)) :
    Steady m (o.mapM f) := by
  cases o with
  | none => exact pure none
  | some a => exact (h a).map some

/-- The options are those of the source. -/
theorem options : Steady m Reading.options :=
  of_unchanged (fun _ => rfl) fun hs hx ρ'' hs'' => by
    obtain ⟨_, _, hg, hp⟩ := gives_bind.1 hx
    obtain ⟨rfl, rfl⟩ := gives_get.1 hg
    obtain ⟨rfl, rfl⟩ := gives_pure.1 hp
    refine gives_bind.2 ⟨ρ'', ρ'', gives_get.2 ⟨rfl, rfl⟩, ?_⟩
    rw [gives_pure, hs.options, hs''.options]
    exact ⟨rfl, rfl⟩

end Steady

/-! ### Registering -/

section Register

variable {m : Source} {ρ ρ' : Reader} {u : Registered} {level : Level}

theorem gives_registering
    {f : Registry → Catalog → Except RegistryFault (Registered × Registry × Catalog)} :
    Gives (Reading.registering f) ρ u ρ' ↔
      ∃ g c, f ρ.registry ρ.catalog = .ok (u, g, c) ∧ ρ' = { ρ with registry := g, catalog := c } := by
  unfold Reading.registering
  rw [gives_bind]
  constructor
  · rintro ⟨r, ρ₁, hg, h⟩
    obtain ⟨rfl, rfl⟩ := gives_get.1 hg
    split at h
    · exact absurd h gives_throw
    · next v g c hf =>
        obtain ⟨_, ρ₂, hset, hp⟩ := gives_bind.1 h
        obtain rfl := gives_set.1 hset
        obtain ⟨rfl, rfl⟩ := gives_pure.1 hp
        exact ⟨g, c, hf, rfl⟩
  · rintro ⟨g, c, hf, rfl⟩
    refine ⟨ρ, ρ, gives_get.2 ⟨rfl, rfl⟩, ?_⟩
    rw [hf]
    exact gives_bind.2 ⟨⟨⟩, _, gives_set.2 rfl, gives_pure.2 ⟨rfl, rfl⟩⟩

/-- A registration that is refused changes nothing. -/
theorem registering_outcome
    (f : Registry → Catalog → Except RegistryFault (Registered × Registry × Catalog)) (ρ : Reader) :
    (∃ u ρ', Gives (Reading.registering f) ρ u ρ') ∨ ∃ e, Reading.registering f ρ = (.error e, ρ) := by
  cases hf : f ρ.registry ρ.catalog with
  | error e =>
      refine .inr ⟨.fault (.registry e), ?_⟩
      rw [Reading.registering, run_bind_ok (x := MonadState.get) (v := ρ) rfl, hf]
      rfl
  | ok p =>
      obtain ⟨u, g, c⟩ := p
      exact .inl ⟨u, _, gives_registering.2 ⟨g, c, hf, rfl⟩⟩

end Register

/-! ### Kinds of entities -/

/-- A kind of entities: where a reader has them on record, how it registers one, and that it does so by steps which are nothing to the other kinds. -/
structure Reader.Part (ι δ : Type) [Identity ι] [NormalForm ι] where
  ledger : Reader → Ledger ι
  entities : (ρ : Reader) → TokenMap ρ.catalog.options.namedTokens (Entity ι δ)
  put : (ρ : Reader) → Ledger ι → TokenMap ρ.catalog.options.namedTokens (Entity ι δ) → Reader
  register : Entity ι δ → Level → Reading Registered
  ledger_put : ∀ ρ l t, ledger (put ρ l t) = l
  get?_put : ∀ ρ l t k, (entities (put ρ l t)).get? k = t.get? k
  registers : ∀ {ρ ρ' e level u},
    (∀ r, (ledger ρ).find? e.identity = some r → r.token ∈ (entities ρ).keys) →
    Gives (register e level) ρ u ρ' →
      ∃ l t, RegisterStep (ledger ρ) (entities ρ) e level u l t ∧ ρ' = put ρ l t
  known : ∀ {ρ id r}, (ledger ρ).find? id = some r → .reference ≤ r.level →
    Gives (register (.reference id) .reference) ρ ⟨r.token, r.level⟩ ρ
  outcome : ∀ e level ρ, (∃ u ρ', Gives (register e level) ρ u ρ') ∨
    ∃ x, register e level ρ = (.error x, ρ)
  refers : ∀ {ρ ρ' id u}, Normal id → Gives (register (.reference id) .reference) ρ u ρ' → ρ.Refers ρ'
  books : ∀ {m ρ}, Sound m ρ → Books (ledger ρ) (entities ρ)
  sound : ∀ {m ρ l t}, Sound m ρ → Books l t → Sound m (put ρ l t)
  grown : ∀ {ρ ρ'}, ρ.Grows ρ' → (ledger ρ).Grows (ledger ρ')
  grows : ∀ {ρ l t}, (ledger ρ).Grows l →
    (∀ {k id d}, (entities ρ).get? k = some (.definition id d) → t.get? k = some (.definition id d)) →
      ρ.Grows (put ρ l t)
  undefined : ∀ {ρ ρ'}, ρ.Plain ρ' → ∀ {k id d}, (entities ρ').get? k = some (.definition id d) →
    (entities ρ).get? k = some (.definition id d)
  plain : ∀ {ρ l t},
    (∀ {k id d}, t.get? k = some (.definition id d) → (entities ρ).get? k = some (.definition id d)) →
    (∀ {id r}, Normal id → l.find? id = some r → .definition ≤ r.level →
      (ledger ρ).find? id = some r) → ρ.Plain (put ρ l t)

namespace Reader.Part

variable {ι δ : Type} [Identity ι] [NormalForm ι] {P : Part ι δ} {m : Source} {ρ ρ' : Reader}
  {e : Entity ι δ} {id : ι} {level : Level} {u : Registered} {t : Token} {r : Registration}

/-- Registers an entity of the kind as a reference. -/
def reference (P : Part ι δ) (id : ι) : Reading Token := do
  return (← P.register (.reference id) .reference).token

/-- From a sound state a registration is a step. -/
theorem step (hs : Sound m ρ) (he : Normal e.identity) (h : Gives (P.register e level) ρ u ρ') :
    ∃ l t, RegisterStep (P.ledger ρ) (P.entities ρ) e level u l t ∧ ρ' = P.put ρ l t :=
  P.registers (fun _ hr => (P.books hs).used he hr) h

theorem recorded_of_reference (hs : Sound m ρ) (hid : Normal id) (h : Gives (P.reference id) ρ t ρ') :
    ∃ r, (P.ledger ρ').find? id = some r ∧ r.token = t := by
  obtain ⟨u, hu, rfl⟩ := gives_bind_pure.1 h
  obtain ⟨l, m', step, rfl⟩ := step (e := .reference id) hs hid hu
  obtain ⟨r, hr, ht, -⟩ := step.recorded
  exact ⟨r, (P.ledger_put ρ l m').symm ▸ hr, ht⟩

/-- What is on record is registered already. -/
theorem gives_register_known (hs : Sound m ρ) (hid : Normal id) (hr : (P.ledger ρ).find? id = some r) :
    Gives (P.register (.reference id) .reference) ρ ⟨r.token, r.level⟩ ρ :=
  P.known hr ((P.books hs).levels id r hid hr)

/-- What is on record gets its token again. -/
theorem gives_reference (hs : Sound m ρ) (hid : Normal id) (hr : (P.ledger ρ).find? id = some r) :
    Gives (P.reference id) ρ r.token ρ :=
  gives_bind_pure.2 ⟨_, gives_register_known hs hid hr, rfl⟩

/-- Registering a reference changes the reader in one step, if at all. -/
theorem referring_register (hid : Normal id) : Referring (P.register (.reference id) .reference) := by
  intro ρ
  rcases P.outcome (.reference id) .reference ρ with ⟨u, ρ', hu⟩ | ⟨x, hx⟩
  · rw [show P.register (.reference id) .reference ρ = (.ok u, ρ') from hu]
    exact P.refers hid hu
  · rw [hx]
    exact .refl ρ

theorem steady_reference (hid : Normal id) : Steady m (P.reference id) where
  refers := (referring_register hid).bind fun _ ρ => .refl ρ
  sound hs h := by
    obtain ⟨u, hu, rfl⟩ := gives_bind_pure.1 h
    obtain ⟨l, m', step, rfl⟩ := step (e := .reference id) hs hid hu
    exact P.sound hs (step.books_reference (P.books hs) hid)
  grows hs h := by
    obtain ⟨u, hu, rfl⟩ := gives_bind_pure.1 h
    obtain ⟨l, m', step, rfl⟩ := step (e := .reference id) hs hid hu
    exact P.grows (step.grows (P.books hs) hid) fun h => step.kept_definition (P.books hs) hid (by decide) h
  plain hs h := by
    obtain ⟨u, hu, rfl⟩ := gives_bind_pure.1 h
    obtain ⟨l, m', step, rfl⟩ := step (e := .reference id) hs hid hu
    exact P.plain (fun h => step.definition_of_reference h)
      fun hid' hr hl => step.level_of_reference (P.books hs) hid hid' hr hl
  stays hs h ρ'' hg hs'' := by
    obtain ⟨r, hr, rfl⟩ := recorded_of_reference hs hid h
    obtain ⟨r', hr', ht, -⟩ := P.grown hg id r hid hr
    rw [← ht]
    exact gives_reference hs'' hid hr'

def types : Part TypeIdentity TypeData where
  ledger ρ := ρ.registry.types
  entities ρ := ρ.catalog.types
  put ρ l t := { ρ with
    registry := { ρ.registry with types := l }, catalog := { ρ.catalog with types := t } }
  register := Reading.registerType
  ledger_put _ _ _ := rfl
  get?_put _ _ _ _ := rfl
  registers used h := by
    obtain ⟨g, c, hf, rfl⟩ := gives_registering.1 h
    obtain ⟨⟨v, l, t⟩, hr, hp⟩ := bind_eq_ok.1 hf
    cases hp
    exact ⟨l, t, registerIn_step used hr, rfl⟩
  known {ρ id r} hr hl := by
    refine gives_registering.2 ⟨ρ.registry, ρ.catalog, ?_, rfl⟩
    unfold Registry.registerType
    exact bind_eq_ok.2 ⟨_, registerIn_known hr hl, rfl⟩
  outcome _ _ _ := registering_outcome _ _
  refers hid h := .type (.refl _) hid h
  books hs := hs.types
  sound hs hb := ⟨hs.image, hs.options, hb, hs.fields, hs.methods⟩
  grown hg := hg.types
  grows hl _ := ⟨hl, .refl _, .refl _, fun h => h, fun h => h⟩
  undefined hp _ _ _ hk := hp.types hk
  plain hd hl := ⟨hd, fun h => h, fun h => h, hl⟩

def fields : Part MemberIdentity FieldData where
  ledger ρ := ρ.registry.fields
  entities ρ := ρ.catalog.fields
  put ρ l t := { ρ with
    registry := { ρ.registry with fields := l }, catalog := { ρ.catalog with fields := t } }
  register := Reading.registerField
  ledger_put _ _ _ := rfl
  get?_put _ _ _ _ := rfl
  registers used h := by
    obtain ⟨g, c, hf, rfl⟩ := gives_registering.1 h
    unfold Registry.registerField at hf
    split at hf
    · exact nomatch hf
    · obtain ⟨⟨v, l, t⟩, hr, hp⟩ := bind_eq_ok.1 hf
      cases hp
      exact ⟨l, t, registerIn_step used hr, rfl⟩
  known {ρ id r} hr hl := by
    refine gives_registering.2 ⟨ρ.registry, ρ.catalog, ?_, rfl⟩
    unfold Registry.registerField
    rw [if_neg (by decide)]
    exact bind_eq_ok.2 ⟨_, registerIn_known hr hl, rfl⟩
  outcome _ _ _ := registering_outcome _ _
  refers _ h := .field (.refl _) h
  books hs := hs.fields
  sound hs hb := ⟨hs.image, hs.options, hs.types, hb, hs.methods⟩
  grown hg := hg.fields
  grows hl hd := ⟨.refl _, hl, .refl _, hd, fun h => h⟩
  undefined hp _ _ _ hk := hp.fields hk
  plain hd _ := ⟨fun h => h, hd, fun h => h, fun _ hr _ => hr⟩

def methods : Part MemberIdentity MethodData where
  ledger ρ := ρ.registry.methods
  entities ρ := ρ.catalog.methods
  put ρ l t := { ρ with
    registry := { ρ.registry with methods := l }, catalog := { ρ.catalog with methods := t } }
  register := Reading.registerMethod
  ledger_put _ _ _ := rfl
  get?_put _ _ _ _ := rfl
  registers used h := by
    obtain ⟨g, c, hf, rfl⟩ := gives_registering.1 h
    unfold Registry.registerMethod at hf
    split at hf
    · exact nomatch hf
    · obtain ⟨⟨v, l, t⟩, hr, hp⟩ := bind_eq_ok.1 hf
      cases hp
      exact ⟨l, t, registerIn_step used hr, rfl⟩
  known {ρ id r} hr hl := by
    refine gives_registering.2 ⟨ρ.registry, ρ.catalog, ?_, rfl⟩
    unfold Registry.registerMethod
    rw [if_neg (by decide)]
    exact bind_eq_ok.2 ⟨_, registerIn_known hr hl, rfl⟩
  outcome _ _ _ := registering_outcome _ _
  refers _ h := .method (.refl _) h
  books hs := hs.methods
  sound hs hb := ⟨hs.image, hs.options, hs.types, hs.fields, hb⟩
  grown hg := hg.methods
  grows hl hd := ⟨.refl _, .refl _, hl, fun h => h, hd⟩
  undefined hp _ _ _ hk := hp.methods hk
  plain hd _ := ⟨fun h => h, fun h => h, hd, fun _ hr _ => hr⟩

end Reader.Part

section Steps

variable {m : Source} {ρ ρ' : Reader} {u : Registered} {level : Level}

theorem step_of_registerType {e : TypeEntity} (hs : Sound m ρ) (he : Normal e.identity)
    (h : Gives (Reading.registerType e level) ρ u ρ') :
    ∃ l t, RegisterStep ρ.registry.types ρ.catalog.types e level u l t ∧
      ρ' = { ρ with registry := { ρ.registry with types := l },
                    catalog := { ρ.catalog with types := t } } :=
  Reader.Part.types.step hs he h

theorem step_of_registerField {e : FieldEntity} (hs : Sound m ρ)
    (h : Gives (Reading.registerField e level) ρ u ρ') :
    ∃ l t, RegisterStep ρ.registry.fields ρ.catalog.fields e level u l t ∧
      ρ' = { ρ with registry := { ρ.registry with fields := l },
                    catalog := { ρ.catalog with fields := t } } :=
  Reader.Part.fields.step hs trivial h

theorem step_of_registerMethod {e : MethodEntity} (hs : Sound m ρ)
    (h : Gives (Reading.registerMethod e level) ρ u ρ') :
    ∃ l t, RegisterStep ρ.registry.methods ρ.catalog.methods e level u l t ∧
      ρ' = { ρ with registry := { ρ.registry with methods := l },
                    catalog := { ρ.catalog with methods := t } } :=
  Reader.Part.methods.step hs trivial h

theorem Steady.typeReference {id : TypeIdentity} (hid : Normal id) : Steady m (Reading.typeReference id) :=
  Reader.Part.types.steady_reference hid

theorem Steady.fieldReference {id : MemberIdentity} : Steady m (Reading.fieldReference id) :=
  Reader.Part.fields.steady_reference trivial

theorem Steady.methodReference {id : MemberIdentity} : Steady m (Reading.methodReference id) :=
  Reader.Part.methods.steady_reference trivial

end Steps

end CilCatalog
