import CilCatalog.Proofs.Reading.Orderly
import CilCatalog.Proofs.Stages

/-!
# Reading again, and by stages

A reader puts an entity on record as a reference, then with its definition and then with its children, up to the level that it is asked for.  What it has read it does not read again.

* `ReadingKind.Lawful`: each part of reading an entity leaves the entity on record at the level that it stands for, under the token that it had.
* `Reader.reads_repeated`: to read an entity again, at the same level or a lower one, gives the token that it has and changes nothing.  To read it at several levels one after the other comes to the same as to read it at the last one at once.
-/

namespace CilCatalog

open Live

/-- What is defined where it was not defined before, is on record as a definition and no more. -/
theorem RegisterStep.defined {named named' : Bool} {ι δ : Type} [Identity ι] [NormalForm ι]
    {l₀ l l' : Ledger ι} {t₀ : TokenMap named (Entity ι δ)} {t t' : TokenMap named' (Entity ι δ)}
    {id : ι} {d : δ} {u : Registered} {k : Token} {old : Level}
    (h : RegisterStep l t (.definition id d) .definition u l' t') (books₀ : Books l₀ t₀)
    (books : Books l t) (grows : l₀.Grows l)
    (plain : ∀ {k id d}, t.get? k = some (.definition id d) → t₀.get? k = some (.definition id d))
    (hid : Normal id) (hr : l₀.find? id = some ⟨k, old⟩) (undefined : old < .definition) :
    u.token = k ∧ l'.find? id = some ⟨k, .definition⟩ := by
  obtain ⟨r, hr', rfl, -⟩ := grows id _ hid hr
  have token : u.token = r.token := h.token_eq hr'
  refine ⟨token, ?_⟩
  rw [← token]
  refine (h.own_of_undefined books₀ books plain hid fun r₀ hr₀ => ?_).1
  cases hr.symm.trans hr₀
  exact fun defined => Level.not_lt_of_le defined undefined

/-- Reading references keeps a reader in order, and loses nothing. -/
theorem Orderly.of_steady {m : Source} {ρ ρ' : Reader} {α : Type} {x : Reading α} {a : α}
    (ho : Orderly m ρ) (hx : Steady m x) (h : Gives x ρ a ρ') : Orderly m ρ' ∧ ρ.Grows ρ' := by
  have refers := hx.refers ρ
  rw [show x ρ = (.ok a, ρ') from h] at refers
  obtain ⟨ho', advances⟩ := ho.refers refers
  exact ⟨ho', advances.grows⟩

/-! ### Kinds of entities -/

namespace ReadingKind

variable {ι δ : Type} [Identity ι] [NormalForm ι] {K : ReadingKind ι δ} {m : Source} {ρ ρ' : Reader}

/-- The entity is registered as a reference, then with its data, and then its children are read. -/
def stages (K : ReadingKind ι δ) : Stages (Failure ReadFault) Reader ι Token where
  begins := do
    let id ← K.identity
    let u ← K.part.register (.reference id) .reference
    return (id, u.token, u.oldLevel)
  defines id _ := do
    let data ← K.data
    let _ ← K.part.register (.definition id data) .definition
  completes _ k := K.children k

/-- What is needed of a kind: that what it does to the record is in order. -/
structure Lawful (m : Source) (K : ReadingKind ι δ) (Own : ι → Prop) : Prop where
  identity : Steady m K.identity
  own : ∀ {ρ id ρ'}, Sound m ρ → Gives K.identity ρ id ρ' → Own id
  normal : ∀ {id}, Own id → Normal id
  reference : ∀ {ρ id u ρ'}, Orderly m ρ → Own id →
    Gives (K.part.register (.reference id) .reference) ρ u ρ' →
    Orderly m ρ' ∧ ρ.Grows ρ' ∧ (K.part.ledger ρ').find? id = some ⟨u.token, u.oldLevel⟩
  definition : ∀ {ρ id k old d ρ₁ u ρ'}, Orderly m ρ → Own id →
    (K.part.ledger ρ).find? id = some ⟨k, old⟩ → old < .definition → Gives K.data ρ d ρ₁ →
    Gives (K.part.register (.definition id d) .definition) ρ₁ u ρ' →
    Orderly m ρ' ∧ ρ.Grows ρ' ∧ u.token = k ∧ (K.part.ledger ρ').find? id = some ⟨k, .definition⟩
  children : ∀ {ρ id k l ρ'}, Orderly m ρ → Own id → (K.part.ledger ρ).find? id = some ⟨k, l⟩ →
    Gives (K.children k) ρ () ρ' →
    Orderly m ρ' ∧ ρ.Grows ρ' ∧ ∃ l', (K.part.ledger ρ').find? id = some ⟨k, l'⟩ ∧ .withChildren ≤ l'

theorem gives_begins {id : ι} {k : Token} {l : Level} : Gives K.stages.begins ρ (id, k, l) ρ' ↔
    ∃ ρ₁, Gives K.identity ρ id ρ₁ ∧ Gives (K.part.register (.reference id) .reference) ρ₁ ⟨k, l⟩ ρ' := by
  rw [stages, gives_bind]
  constructor
  · rintro ⟨id, ρ₁, hid, h⟩
    obtain ⟨u, hu, h⟩ := gives_bind_pure.1 h
    cases h
    exact ⟨ρ₁, hid, hu⟩
  · rintro ⟨ρ₁, hid, hu⟩
    exact ⟨id, ρ₁, hid, gives_bind_pure.2 ⟨_, hu, rfl⟩⟩

theorem gives_defines {id : ι} {k : Token} : Gives (K.stages.defines id k) ρ () ρ' ↔
    ∃ d ρ₁ u, Gives K.data ρ d ρ₁ ∧ Gives (K.part.register (.definition id d) .definition) ρ₁ u ρ' := by
  rw [stages, gives_bind]
  constructor
  · rintro ⟨d, ρ₁, hd, h⟩
    obtain ⟨u, hu, -⟩ := gives_bind_pure.1 h
    exact ⟨d, ρ₁, u, hd, hu⟩
  · rintro ⟨d, ρ₁, u, hd, hu⟩
    exact ⟨d, ρ₁, hd, gives_bind_pure.2 ⟨u, hu, rfl⟩⟩

variable {Own : ι → Prop}

/-- The stages of a lawful kind are lawful. -/
theorem Lawful.stages (law : K.Lawful m Own) : K.stages.Lawful (Orderly m) Reader.Grows
    fun ρ id k l => Own id ∧ (K.part.ledger ρ).find? id = some ⟨k, l⟩ where
  refl := .refl
  trans := .trans
  unique h h' := by
    cases h.2.symm.trans h'.2
    rfl
  stays ho hon hg := by
    obtain ⟨⟨k, l'⟩, hr, rfl, hl⟩ := K.part.grown hg _ _ (law.normal hon.1) hon.2
    exact ⟨l', ⟨hon.1, hr⟩, hl⟩
  begins ho h := by
    obtain ⟨ρ₁, hid, hu⟩ := gives_begins.1 h
    have own := law.own ho.sound hid
    obtain ⟨ho₁, hg₁⟩ := ho.of_steady law.identity hid
    obtain ⟨ho', hg, hr⟩ := law.reference ho₁ own hu
    exact ⟨ho', hg₁.trans hg, own, hr⟩
  again ho h hg ho' hon := by
    obtain ⟨ρ₁, hid, hu⟩ := gives_begins.1 h
    obtain ⟨ho₁, -⟩ := ho.of_steady law.identity hid
    obtain ⟨-, hg₁, -⟩ := law.reference ho₁ hon.1 hu
    have same := law.identity.stays ho.sound hid (hg₁.trans hg) ho'.sound
    exact gives_begins.2 ⟨_, same, K.part.gives_register_known ho'.sound (law.normal hon.1) hon.2⟩
  defines ho hon undefined h := by
    obtain ⟨d, ρ₁, u, hd, hu⟩ := gives_defines.1 h
    obtain ⟨ho', hg, -, hr⟩ := law.definition ho hon.1 hon.2 undefined hd hu
    exact ⟨ho', hg, hon.1, hr⟩
  completes ho hon _ h := by
    obtain ⟨ho', hg, l', hr, hl⟩ := law.children ho hon.1 hon.2 h
    exact ⟨ho', hg, l', ⟨hon.1, hr⟩, hl⟩

/-! ### Fields and methods -/

section Members

variable {K : ReadingKind MemberIdentity δ}

theorem gives_member {level : Level} {k : Token} : Gives (K.member level) ρ k ρ' ↔
    (.reference ≤ level ∧ level ≤ .definition) ∧ ∃ id ρ₁ u ρ₂, Gives K.identity ρ id ρ₁ ∧
      Gives (K.part.register (.reference id) .reference) ρ₁ u ρ₂ ∧
      if level ≤ u.oldLevel then k = u.token ∧ ρ' = ρ₂
      else ∃ d ρ₃ v, Gives K.data ρ₂ d ρ₃ ∧
        Gives (K.part.register (.definition id d) .definition) ρ₃ v ρ' ∧ k = v.token := by
  refine Stages.gives_checked.trans (and_congr_right fun _ => ?_)
  constructor
  · intro h
    obtain ⟨id, ρ₁, hid, h⟩ := gives_bind.1 h
    obtain ⟨u, ρ₂, hu, h⟩ := gives_bind.1 h
    refine ⟨id, ρ₁, u, ρ₂, hid, hu, ?_⟩
    split at h
    · next hl =>
        rw [if_pos hl]
        exact gives_pure.1 h
    · next hl =>
        rw [if_neg hl]
        obtain ⟨d, ρ₃, hd, h⟩ := gives_bind.1 h
        obtain ⟨v, hv, rfl⟩ := gives_bind_pure.1 h
        exact ⟨d, ρ₃, v, hd, hv, rfl⟩
  · rintro ⟨id, ρ₁, u, ρ₂, hid, hu, h⟩
    refine gives_bind.2 ⟨id, ρ₁, hid, gives_bind.2 ⟨u, ρ₂, hu, ?_⟩⟩
    split at h
    · next hl =>
        rw [if_pos hl]
        exact gives_pure.2 h
    · next hl =>
        rw [if_neg hl]
        obtain ⟨d, ρ₃, v, hd, hv, rfl⟩ := h
        exact gives_bind.2 ⟨d, ρ₃, hd, gives_bind_pure.2 ⟨v, hv, rfl⟩⟩

/-- Reading a member goes through the stages. -/
theorem Lawful.performs {Own : MemberIdentity → Prop} (law : K.Lawful m Own) :
    K.stages.Performs (Orderly m) .definition K.member := by
  intro level ρ k ρ' ho
  refine gives_member.trans (and_congr_right fun within => ?_)
  rw [Stages.gives_run]
  constructor
  · rintro ⟨id, ρ₁, ⟨k', old⟩, ρ₂, hid, hu, h⟩
    split at h
    · next done =>
        obtain ⟨rfl, rfl⟩ := h
        exact ⟨id, old, ρ', gives_begins.2 ⟨ρ₁, hid, hu⟩, (Stages.gives_finish_done done).2 rfl⟩
    · next undone =>
        obtain ⟨d, ρ₃, v, hd, hv, rfl⟩ := h
        have begun := gives_begins.2 ⟨ρ₁, hid, hu⟩
        have undefined : old < .definition :=
          Level.lt_of_lt_of_le (Level.lt_of_not_le undone) within.2
        -- the definition is registered under the token of the reference
        obtain ⟨ho₂, -, own, hr⟩ := law.stages.begins ho begun
        obtain ⟨-, -, token, -⟩ := law.definition ho₂ own hr undefined hd hv
        rw [token]
        refine ⟨id, old, ρ₂, begun, (Stages.gives_finish_undefined undone undefined).2 ⟨ρ', ?_, ?_⟩⟩
        · exact gives_defines.2 ⟨d, ρ₃, v, hd, hv⟩
        · rw [if_pos within.2]
  · rintro ⟨id, old, ρ₂, begun, h⟩
    obtain ⟨ρ₁, hid, hu⟩ := gives_begins.1 begun
    refine ⟨id, ρ₁, ⟨k, old⟩, ρ₂, hid, hu, ?_⟩
    by_cases done : level ≤ old
    · rw [if_pos done]
      exact ⟨rfl, (Stages.gives_finish_done done).1 h⟩
    · have undefined : old < .definition := Level.lt_of_lt_of_le (Level.lt_of_not_le done) within.2
      obtain ⟨ρ₃, defines, h⟩ := (Stages.gives_finish_undefined done undefined).1 h
      rw [if_pos within.2] at h
      subst h
      obtain ⟨d, ρ₃, v, hd, hv⟩ := gives_defines.1 defines
      obtain ⟨ho₂, -, own, hr⟩ := law.stages.begins ho begun
      obtain ⟨-, -, token, -⟩ := law.definition ho₂ own hr undefined hd hv
      rw [if_neg done]
      exact ⟨d, ρ₃, v, hd, hv, token.symm⟩

/-- A member of which it is needed that it is recorded does no more to the record than it should. -/
theorem Recording.lawful (law : K.Recording m) (hP : K.part.OfMembers)
    (childless : ∀ k, K.children k = throw .unexplained) : K.Lawful m fun _ => True where
  identity := law.identity
  own _ _ := trivial
  normal _ := trivial
  reference := by
    intro ρ id u ρ' ho _ hu
    obtain ⟨ho', ha⟩ := ho.refers (K.part.refers trivial hu)
    obtain ⟨l, t, step, rfl⟩ := K.part.step (e := .reference id) ho.sound trivial hu
    obtain ⟨⟨k, level⟩, hr, rfl, rfl⟩ := step.level_eq (K.part.books ho.sound) trivial
    exact ⟨ho', ha.grows, (K.part.ledger_put ρ l t).symm ▸ hr⟩
  definition := by
    intro ρ id k old d ρ₁ u ρ' ho _ hr undefined hd hu
    obtain ⟨ho₁, hg₁⟩ := ho.of_steady law.data hd
    obtain ⟨ho', ha⟩ := ho₁.registerMember hP (by decide) (Level.le_refl _)
      (Entity.isDefinition_definition id d (Level.le_refl _)) hu
    obtain ⟨l, t, step, rfl⟩ := K.part.step (e := .definition id d) ho₁.sound trivial hu
    obtain ⟨token, defined⟩ := step.defined (K.part.books ho.sound) (K.part.books ho₁.sound)
      (K.part.grown hg₁) (K.part.undefined (law.data.plain ho.sound hd)) trivial hr undefined
    exact ⟨ho', hg₁.trans ha.grows, token, (K.part.ledger_put ρ₁ l t).symm ▸ defined⟩
  children {_ _ k _ _} _ _ _ h := by
    rw [childless k] at h
    exact absurd h gives_throw

end Members

end ReadingKind

theorem fieldKind_lawful (m : Source) (f : FieldId) : (fieldKind m.store f).Lawful m fun _ => True :=
  (fieldKind_recording f).lawful Reader.Part.fields_ofMembers fun _ => rfl

theorem methodKind_lawful (m : Source) (f : MethodId) : (methodKind m.store f).Lawful m fun _ => True :=
  (methodKind_recording f).lawful Reader.Part.methods_ofMembers fun _ => rfl

/-! ### Types -/

section Types

variable (s : Store)

/-- The types nested in a type are `depth` deep at most. -/
def typeKind (depth : Nat) (t : TypeId) : ReadingKind TypeIdentity TypeData where
  part := .types
  identity := do
    Reading.checkType s t
    return Reading.definitionIdentity s t
  data := Reading.typeData s (s.typeDef t)
  children k := do
    let nested ← (s.typeDef t).nestedTypes.mapM fun n => Reading.typeWithin s depth (some n) .withChildren
    Reading.children s t k nested

/-- What is left to read of a type after its definition. -/
theorem gives_afterDefinition {depth : Nat} {t : TypeId} {level : Level} {k k' : Token}
    (high : level ≤ .withChildren) {ρ ρ' : Reader} :
    Gives (if level ≤ .definition then pure k else do
      let nested ← (s.typeDef t).nestedTypes.mapM fun n => Reading.typeWithin s depth (some n) level
      Reading.children s t k nested
      return k) ρ k' ρ' ↔
    k' = k ∧ if level ≤ .definition then ρ' = ρ
      else Gives ((typeKind s depth t).children k) ρ () ρ' := by
  split
  · exact gives_pure
  · next above =>
      obtain rfl := Level.eq_withChildren above high
      rw [typeKind]
      constructor
      · intro h
        obtain ⟨nested, ρ₁, hn, h⟩ := gives_bind.1 h
        obtain ⟨⟨⟩, hc, rfl⟩ := gives_bind_pure.1 h
        exact ⟨rfl, gives_bind.2 ⟨nested, ρ₁, hn, hc⟩⟩
      · rintro ⟨rfl, h⟩
        obtain ⟨nested, ρ₁, hn, hc⟩ := gives_bind.1 h
        exact gives_bind.2 ⟨nested, ρ₁, hn, gives_bind_pure.2 ⟨(), hc, rfl⟩⟩

/-- Reading a type goes through the stages. -/
theorem type_performs {m : Source} (depth : Nat) (t : TypeId) :
    (typeKind m.store depth t).stages.Performs (Orderly m) .withChildren
      fun level => Reading.typeWithin m.store (depth + 1) (some t) level := by
  intro level ρ k ρ' _
  simp only [Reading.typeWithin]
  refine Stages.gives_checked.trans (and_congr_right fun within => ?_)
  rw [Stages.gives_run]
  simp only [ReadingKind.gives_begins]
  constructor
  · intro h
    obtain ⟨_, ρ₁, hc, h⟩ := gives_bind.1 h
    obtain ⟨u, ρ₂, hu, h⟩ := gives_bind.1 h
    have begun : Gives (typeKind m.store depth t).identity ρ (Reading.definitionIdentity m.store t) ρ₁ :=
      gives_bind_pure.2 ⟨_, hc, rfl⟩
    split at h
    · next done =>
        obtain ⟨rfl, rfl⟩ := gives_pure.1 h
        exact ⟨_, u.oldLevel, _, ⟨ρ₁, begun, hu⟩, (Stages.gives_finish_done done).2 rfl⟩
    · next undone =>
        split at h
        · next undefined =>
            obtain ⟨d, ρ₃, hd, h⟩ := gives_bind.1 h
            obtain ⟨v, ρ₄, hv, h⟩ := gives_bind.1 h
            obtain ⟨rfl, left⟩ := (gives_afterDefinition m.store within.2).1 h
            exact ⟨_, u.oldLevel, _, ⟨ρ₁, begun, hu⟩,
              (Stages.gives_finish_undefined undone undefined).2
                ⟨ρ₄, ReadingKind.gives_defines.2 ⟨d, ρ₃, v, hd, hv⟩, left⟩⟩
        · next defined =>
            obtain ⟨rfl, left⟩ := (gives_afterDefinition m.store within.2).1 h
            have above : ¬ level ≤ .definition := fun h =>
              undone (Level.le_trans h (Level.le_of_not_lt defined))
            rw [if_neg above] at left
            exact ⟨_, u.oldLevel, _, ⟨ρ₁, begun, hu⟩, (Stages.gives_finish_defined undone defined).2 left⟩
  · rintro ⟨_, old, ρ₂, ⟨ρ₁, begun, hu⟩, h⟩
    obtain ⟨_, hc, rfl⟩ := gives_bind_pure.1 begun
    refine gives_bind.2 ⟨_, ρ₁, hc, gives_bind.2 ⟨_, ρ₂, hu, ?_⟩⟩
    by_cases done : level ≤ old
    · rw [if_pos done]
      exact gives_pure.2 ⟨rfl, (Stages.gives_finish_done done).1 h⟩
    · rw [if_neg done]
      by_cases undefined : old < .definition
      · obtain ⟨ρ₄, defines, left⟩ := (Stages.gives_finish_undefined done undefined).1 h
        obtain ⟨d, ρ₃, v, hd, hv⟩ := ReadingKind.gives_defines.1 defines
        rw [if_pos undefined]
        exact gives_bind.2 ⟨d, ρ₃, hd, gives_bind.2 ⟨v, ρ₄, hv,
          (gives_afterDefinition m.store within.2).2 ⟨rfl, left⟩⟩⟩
      · have left := (Stages.gives_finish_defined done undefined).1 h
        have above : ¬ level ≤ .definition := fun h =>
          done (Level.le_trans h (Level.le_of_not_lt undefined))
        rw [if_neg undefined]
        refine (gives_afterDefinition m.store within.2).2 ⟨rfl, ?_⟩
        rw [if_neg above]
        exact left

/-- What a type of the module is on record as. -/
def OwnType (m : Source) (t : TypeId) (id : TypeIdentity) : Prop :=
  id = Reading.definitionIdentity m.store t ∧ (m.store.typeDef t).image = m.image

theorem typeKind_lawful (m : Source) (depth : Nat) (t : TypeId) :
    (typeKind m.store depth t).Lawful m (OwnType m t) where
  identity := (Steady.checkType m.store t).bind fun _ => .pure _
  own := by
    intro ρ id ρ' hs h
    obtain ⟨_, hc, rfl⟩ := gives_bind_pure.1 h
    exact ⟨rfl, (gives_checkType.1 hc).1.trans hs.image⟩
  normal := by
    rintro id ⟨rfl, -⟩
    exact definitionIdentity_normal m.store t
  reference := by
    rintro ρ id u ρ' ho ⟨rfl, -⟩ hu
    have hid := definitionIdentity_normal m.store t
    obtain ⟨ho', ha⟩ := ho.refers (.type (.refl ρ) hid hu)
    obtain ⟨l, t, step, rfl⟩ := step_of_registerType (e := .reference _) ho.sound hid hu
    obtain ⟨⟨k, level⟩, hr, rfl, rfl⟩ := step.level_eq ho.sound.types hid
    exact ⟨ho', ha.grows, hr⟩
  definition := by
    rintro ρ id k old d ρ₁ u ρ' ho ⟨rfl, -⟩ hr undefined hd hu
    have hid := definitionIdentity_normal m.store t
    have data := Steady.typeData (m := m) m.store (m.store.typeDef t)
    obtain ⟨ho₁, hg₁⟩ := ho.of_steady data hd
    obtain ⟨ho', ha⟩ :=
      ho₁.registerChildless hid (TypeData.childless_of_bare (typeData_bare hd)) hu
    obtain ⟨l, t, step, rfl⟩ := step_of_registerType (e := .definition _ d) ho₁.sound hid hu
    obtain ⟨token, defined⟩ := step.defined ho.sound.types ho₁.sound.types hg₁.types
      (data.plain ho.sound hd).types hid hr undefined
    exact ⟨ho', hg₁.trans ha.grows, token, defined⟩
  children := by
    rintro ρ id k l ρ' ho ⟨rfl, ht⟩ hr h
    have hid := definitionIdentity_normal m.store t
    have children : Orders m ρ ((typeKind m.store depth t).children k) fun ρ' _ =>
        TypeComplete m ρ' t k := by
      refine (Orders.mapM (fun n _ => (Orders.typeWithin depth (some n) .withChildren).imp
        fun h => h n rfl rfl) fun h hg => h.grow hg).bind fun {ns ρ₁} _ ha hns => ?_
      obtain ⟨r', hr', token, -⟩ := ha.grows.types _ _ hid hr
      exact Orders.children ht ⟨r', hr', token⟩ hns
    obtain ⟨ho', ha, complete⟩ := children ho
    rw [show (typeKind m.store depth t).children k ρ = (.ok (), ρ') from h] at ho' ha complete
    obtain ⟨-, r, hr', rfl, hl⟩ := complete () rfl
    exact ⟨ho', ha.grows, r.level, hr', hl⟩

end Types

/-! ### Whatever is read -/

namespace Reader

/-- A row of the module that is read at a level. -/
inductive Subject where
  | type (t : TypeId)
  | field (f : FieldId)
  | method (f : MethodId)

def Subject.read (s : Store) : Subject → Level → Reading Token
  | .type t => Reading.type s (some t)
  | .field f => Reading.field s (some f)
  | .method f => Reading.method s (some f)

/-- Every subject is read by lawful stages. -/
theorem Subject.staged (m : Source) (x : Subject) :
    ∃ (ι : Type) (S : Stages (Failure ReadFault) Reader ι Token) (On : Reader → ι → Token → Level → Prop)
      (highest : Level), S.Lawful (Orderly m) Reader.Grows On ∧ highest ≤ .withChildren ∧
        S.Performs (Orderly m) highest (x.read m.store) := by
  cases x with
  | type t => exact ⟨_, _, _, _, (typeKind_lawful m _ t).stages, Level.le_refl _, type_performs _ t⟩
  | field f =>
      exact ⟨_, _, _, _, (fieldKind_lawful m f).stages, by decide, (fieldKind_lawful m f).performs⟩
  | method f =>
      exact ⟨_, _, _, _, (methodKind_lawful m f).stages, by decide, (methodKind_lawful m f).performs⟩

/-- Whatever a reader has been asked for before and in between: what it has read at a level it does not read again at that level or a lower one, but gives the same token and stays as it is.  What it reads at any levels up to another, and then at that, is what it reads at the last level at once; the reader ends up the same, and each of the calls gives the token of the last. -/
theorem reads_repeated (s : Store) (i : ImageId) (o : Options) (qs : List Request) (x : Subject)
    (l : Level) :
    (∀ {k ρ'}, Gives (x.read s l) ((start i o).afterAll s qs) k ρ' →
      ∀ (qs' : List Request) {l' : Level}, .reference ≤ l' → l' ≤ l →
        Gives (x.read s l') (ρ'.afterAll s qs') k (ρ'.afterAll s qs')) ∧
    ∀ (ls : List Level), (∀ l' ∈ ls, .reference ≤ l' ∧ l' ≤ l) → ∀ {ks ρ'},
      (Gives ((ls ++ [l]).mapM (x.read s)) ((start i o).afterAll s qs) ks ρ' ↔
        ∃ k, Gives (x.read s l) ((start i o).afterAll s qs) k ρ' ∧
          ks = List.replicate (ls.length + 1) k) := by
  obtain ⟨ι, S, On, highest, law, top, performs⟩ := x.staged ⟨s, i, o⟩
  have ho := (orderly_afterAll (start_orderly ⟨s, i, o⟩) qs).1
  constructor
  · intro k ρ' h qs' l' low hl
    have ho' := performs.good law top ho h
    obtain ⟨later, advances⟩ := orderly_afterAll ho' qs'
    exact performs.again law top ho h low hl advances.grows later
  · intro ls hls ks ρ'
    exact performs.staged_iff law top ho hls

/-- After a request that is refused, the type with a field, a method and a type inside is read with them.  One of the members is asked for, and the definition of the type is not read again.  Read by stages it is read the same. -/
theorem reads_repeated_family :
    ∃ k ρ, Gives ((Subject.type ⟨0⟩).read family.store .withChildren)
        ((start family.image family.options).afterAll family.store [.type none .definition]) k ρ ∧
      Gives ((Subject.type ⟨0⟩).read family.store .definition)
        (ρ.afterAll family.store [.field (some ⟨0⟩) .definition]) k
        (ρ.afterAll family.store [.field (some ⟨0⟩) .definition]) ∧
      Gives ([.reference, .definition, .withChildren].mapM ((Subject.type ⟨0⟩).read family.store))
        ((start family.image family.options).afterAll family.store [.type none .definition])
        [k, k, k] ρ := by
  obtain ⟨k, first⟩ := gives_of_isOk (x := (Subject.type ⟨0⟩).read family.store .withChildren)
    (a := (start family.image family.options).afterAll family.store [.type none .definition])
    (by decide +kernel)
  obtain ⟨again, staged⟩ := reads_repeated family.store family.image family.options
    [.type none .definition] (.type ⟨0⟩) .withChildren
  refine ⟨k, _, first, ?_, ?_⟩
  · exact again first [.field (some ⟨0⟩) .definition] (by decide) (by decide)
  · exact (staged [.reference, .definition] (by decide)).2 ⟨k, first, rfl⟩

end Reader

end CilCatalog
