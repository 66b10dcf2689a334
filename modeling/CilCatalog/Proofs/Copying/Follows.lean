import CilCatalog.Proofs.Live.Extends
import CilCatalog.Proofs.Reading.Record

/-!
# Readings that follow each other

A copy of a module is read as the module itself: whatever a reading of the module does, the reading of the copy does as well, in the same state but for the module at hand.  `Copy.Follows` says that for two readings, and `Copy.Echo` for readings of a copy that is still being written, which may go on to grow.
-/

namespace CilCatalog

open Live

/-- A module that has been read, and the module that it is copied to. -/
structure Copy where
  source : Source
  regular : source.Regular
  reader : Reader
  sound : Sound source reader
  recorded : Recorded source reader
  /-- The module of the copy. -/
  image : ImageId
  /-- The number of its first type. -/
  base : Nat

/-- The same state of a reader, at work on another module. -/
def Reader.onto (ρ : Reader) (j : ImageId) : Reader := { ρ with image := j }

namespace Copy

variable {C : Copy} {α β γ δ : Type}

/-- The catalog that has been read. -/
def catalog (C : Copy) : Catalog := C.reader.catalog

/-- The copy as a module that is read. -/
def target (C : Copy) (σ : Store) : Source := ⟨σ, C.image, C.source.options⟩

/-- What the first reading does to a state, the second does to that state of a reader of the copy. -/
def Follows (C : Copy) (x y : Reading α) : Prop :=
  ∀ ρ a ρ', ρ.image = C.source.image → ρ.catalog.options = C.source.options → Gives x ρ a ρ' →
    ρ'.image = C.source.image ∧ ρ'.catalog.options = C.source.options ∧
      Gives y (ρ.onto C.image) a (ρ'.onto C.image)

namespace Follows

theorem pure (a : α) : C.Follows (pure a) (pure a) := by
  intro ρ b ρ' hi ho h
  obtain ⟨rfl, rfl⟩ := gives_pure.1 h
  exact ⟨hi, ho, gives_pure.2 ⟨rfl, rfl⟩⟩

/-- A reading that fails is followed by anything. -/
theorem throw (f : Failure ReadFault) (y : Reading α) : C.Follows (throw f) y :=
  fun _ _ _ _ _ h => absurd h gives_throw

theorem refuse (f : ReadFault) (y : Reading α) : C.Follows (Reading.refuse f) y := throw _ y

theorem ofExcept (r : Except (Failure ReadFault) α) :
    C.Follows (MonadExcept.ofExcept r) (MonadExcept.ofExcept r) := by
  intro ρ a ρ' hi ho h
  obtain ⟨hr, rfl⟩ := gives_ofExcept.1 h
  exact ⟨hi, ho, gives_ofExcept.2 ⟨hr, rfl⟩⟩

theorem bind {x y : Reading α} {f g : α → Reading β} (hx : C.Follows x y)
    (hf : ∀ a, C.Follows (f a) (g a)) : C.Follows (x >>= f) (y >>= g) := by
  intro ρ b ρ' hi ho h
  obtain ⟨a, ρ₁, ha, hb⟩ := gives_bind.1 h
  obtain ⟨hi₁, ho₁, ha'⟩ := hx _ _ _ hi ho ha
  obtain ⟨hi₂, ho₂, hb'⟩ := hf a _ _ _ hi₁ ho₁ hb
  exact ⟨hi₂, ho₂, gives_bind.2 ⟨a, ρ₁.onto C.image, ha', hb'⟩⟩

/-- What follows may rely on the options. -/
theorem options_bind {f g : Options → Reading β}
    (hf : C.Follows (f C.source.options) (g C.source.options)) :
    C.Follows (Reading.options >>= f) (Reading.options >>= g) := by
  intro ρ b ρ' hi ho h
  obtain ⟨o, ρ₁, hopt, hb⟩ := gives_bind.1 h
  obtain ⟨rfl, rfl⟩ := gives_options.1 hopt
  rw [ho] at hb
  obtain ⟨hi', ho', hb'⟩ := hf _ _ _ hi ho hb
  exact ⟨hi', ho', gives_bind.2 ⟨_, _, gives_options.2 ⟨ho.symm, rfl⟩, hb'⟩⟩

theorem map {x y : Reading α} (hx : C.Follows x y) (f : α → β) : C.Follows (f <$> x) (f <$> y) := by
  rw [map_eq_pure_bind, map_eq_pure_bind]
  exact hx.bind fun a => pure (f a)

theorem ite {p : Prop} [Decidable p] {x x' y y' : Reading α} (hx : C.Follows x y)
    (hx' : C.Follows x' y') : C.Follows (if p then x else x') (if p then y else y') := by
  split
  · exact hx
  · exact hx'

theorem mapM {f : α → Reading γ} {g : β → Reading γ} {as : List α} {bs : List β}
    (h : List.Forall₂ (fun a b => C.Follows (f a) (g b)) as bs) :
    C.Follows (as.mapM f) (bs.mapM g) := by
  induction h with
  | nil => exact pure []
  | cons hab _ ih =>
      rw [List.mapM_cons, List.mapM_cons]
      exact hab.bind fun c => ih.bind fun cs => pure (c :: cs)

theorem registering
    (f : Registry → Catalog → Except RegistryFault (Registered × Registry × Catalog))
    (hf : ∀ {r c u r' c'}, f r c = .ok (u, r', c') → c'.options = c.options) :
    C.Follows (Reading.registering f) (Reading.registering f) := by
  intro ρ u ρ' hi ho h
  obtain ⟨g, c, hc, rfl⟩ := gives_registering.1 h
  exact ⟨hi, (hf hc).trans ho, gives_registering.2 ⟨g, c, hc, rfl⟩⟩

theorem registerType (e : TypeEntity) (level : Level) :
    C.Follows (Reading.registerType e level) (Reading.registerType e level) :=
  registering _ fun h => by
    obtain ⟨_, -, hp⟩ := bind_eq_ok.1 h
    cases hp
    rfl

theorem registerField (e : FieldEntity) (level : Level) :
    C.Follows (Reading.registerField e level) (Reading.registerField e level) :=
  registering _ fun h => by
    unfold Registry.registerField at h
    split at h
    · exact nomatch h
    · obtain ⟨_, -, hp⟩ := bind_eq_ok.1 h
      cases hp
      rfl

theorem registerMethod (e : MethodEntity) (level : Level) :
    C.Follows (Reading.registerMethod e level) (Reading.registerMethod e level) :=
  registering _ fun h => by
    unfold Registry.registerMethod at h
    split at h
    · exact nomatch h
    · obtain ⟨_, -, hp⟩ := bind_eq_ok.1 h
      cases hp
      rfl

theorem typeReference (id : TypeIdentity) :
    C.Follows (Reading.typeReference id) (Reading.typeReference id) :=
  (registerType _ _).bind fun _ => pure _

theorem fieldReference (id : MemberIdentity) :
    C.Follows (Reading.fieldReference id) (Reading.fieldReference id) :=
  (registerField _ _).bind fun _ => pure _

theorem methodReference (id : MemberIdentity) :
    C.Follows (Reading.methodReference id) (Reading.methodReference id) :=
  (registerMethod _ _).bind fun _ => pure _

end Follows

/-- The reading of a copy follows, now and when the copy has grown. -/
def Echo (C : Copy) (σ : Store) (x : Reading α) (y : Store → Reading α) : Prop :=
  ∀ σ', σ.Extends σ' → C.Follows x (y σ')

theorem Echo.extends {σ σ' : Store} {x : Reading α} {y : Store → Reading α} (h : C.Echo σ x y)
    (he : σ.Extends σ') : C.Echo σ' x y :=
  fun σ'' he' => h σ'' (he.trans he')

/-- What has been read of the source can be read of the copy. -/
theorem Echo.gives {σ : Store} {x : Reading α} {y : Store → Reading α} {a : α} (h : C.Echo σ x y)
    (hx : Steady C.source x) (ha : Read C.source C.reader x a) :
    Gives (y σ) (C.reader.onto C.image) a (C.reader.onto C.image) :=
  (h σ (.refl σ) _ _ _ C.sound.image C.sound.options (ha.gives hx C.sound)).2.2

end Copy

end CilCatalog
