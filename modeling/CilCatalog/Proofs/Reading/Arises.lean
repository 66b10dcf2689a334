import CilCatalog.Proofs.Reading.Mirror
import CilCatalog.Proofs.Reading.Record
import CilCatalog.Reading.Entity

/-!
# Readers of modules that change

What a reader has on record belongs together, whatever it has been asked for and whatever has become of the live modules in between: reading depends on the modules, but keeping the books does not.

* `Soundly`: a computation leaves a sound reader, whether it succeeds or fails.
* `Reader.Arises.sound`: a reader that begins with nothing and serves requests is sound, also where the live modules change from one request to the next.
-/

namespace CilCatalog

open Live

variable {m : Source} {ρ ρ' : Reader}

/-- Registering references keeps a reader sound. -/
theorem Sound.refers (hs : Sound m ρ) (h : ρ.Refers ρ') : Sound m ρ' := by
  induction h with
  | refl => exact hs
  | type _ hid hu ih => exact (ih.registerType (e := .reference _) hid (Level.le_refl _) (Entity.isDefinition_reference _) hu).1
  | field _ hu ih => exact (ih.registerField (Level.le_refl _) (Entity.isDefinition_reference _) hu).1
  | method _ hu ih => exact (ih.registerMethod (Level.le_refl _) (Entity.isDefinition_reference _) hu).1

/-- Whether it succeeds or fails, the computation leaves a sound reader. -/
def Soundly (m : Source) {α : Type} (x : Reading α) : Prop := ∀ ρ : Reader, Sound m ρ → Sound m (x ρ).2

namespace Soundly

variable {α β : Type} {x : Reading α} {level : Level}

theorem pure {a : α} : Soundly m (pure a : Reading α) := fun _ => id

theorem throw {f : Failure ReadFault} : Soundly m (throw f : Reading α) := fun _ => id

theorem refuse {f : ReadFault} : Soundly m (Reading.refuse f : Reading α) := throw

theorem ofExcept {r : Except (Failure ReadFault) α} :
    Soundly m (MonadExcept.ofExcept r : Reading α) := by
  cases r with
  | ok a => exact pure
  | error e => exact throw

theorem bind {f : α → Reading β} (hx : Soundly m x) (hf : ∀ a, Soundly m (f a)) :
    Soundly m (x >>= f) := by
  intro ρ hs
  have first := hx ρ hs
  cases h : x ρ with
  | mk r ρ₁ =>
      rw [h] at first
      cases r with
      | error e =>
          rw [run_bind_error h]
          exact first
      | ok a =>
          rw [run_bind_ok h]
          exact hf a ρ₁ first

/-- What comes next may make use of what the reader is like. -/
theorem bind_get {f : Reader → Reading α} (hf : ∀ ρ, Sound m ρ → Soundly m (f ρ)) :
    Soundly m (MonadState.get >>= f) := by
  intro ρ hs
  rw [run_bind_ok (x := MonadState.get) (v := ρ) rfl]
  exact hf ρ hs ρ hs

theorem ite {p : Prop} [Decidable p] {y : Reading α} (hx : Soundly m x) (hy : Soundly m y) :
    Soundly m (if p then x else y) := by
  split
  · exact hx
  · exact hy

theorem mapM {f : α → Reading β} (as : List α) (hf : ∀ a, Soundly m (f a)) :
    Soundly m (as.mapM f) := by
  induction as with
  | nil => exact pure
  | cons a as ih =>
      rw [List.mapM_cons]
      exact (hf a).bind fun _ => ih.bind fun _ => pure

theorem of_steady (hx : Steady m x) : Soundly m x := fun ρ hs => hs.refers (hx.refers ρ)

/-! ### Registering -/

theorem registering
    {f : Registry → Catalog → Except RegistryFault (Registered × Registry × Catalog)}
    (h : ∀ {ρ u ρ'}, Sound m ρ → Gives (Reading.registering f) ρ u ρ' → Sound m ρ') :
    Soundly m (Reading.registering f) := by
  intro ρ hs
  rcases registering_outcome f ρ with ⟨u, ρ', hu⟩ | ⟨e, he⟩
  · rw [show Reading.registering f ρ = (.ok u, ρ') from hu]
    exact h hs hu
  · rw [he]
    exact hs

theorem typeReference {id : TypeIdentity} (hid : Normal id) :
    Soundly m (Reading.registerType (.reference id) .reference) :=
  registering fun hs hu => (hs.registerType (e := .reference id) hid (Level.le_refl _)
    (Entity.isDefinition_reference id) hu).1

theorem typeDefinition {id : TypeIdentity} {d : TypeData} (hid : Normal id)
    (hl : .definition ≤ level) : Soundly m (Reading.registerType (.definition id d) level) :=
  registering fun hs hu => (hs.registerType (e := .definition id d) hid
    (Level.le_trans (by decide) hl) (Entity.isDefinition_definition id d hl) hu).1

theorem fieldReference {id : MemberIdentity} :
    Soundly m (Reading.registerField (.reference id) .reference) :=
  registering fun hs hu => (hs.registerField (Level.le_refl _) (Entity.isDefinition_reference id) hu).1

theorem fieldDefinition {id : MemberIdentity} {d : FieldData} :
    Soundly m (Reading.registerField (.definition id d) .definition) :=
  registering fun hs hu => (hs.registerField (by decide)
    (Entity.isDefinition_definition id d (Level.le_refl _)) hu).1

theorem methodReference {id : MemberIdentity} :
    Soundly m (Reading.registerMethod (.reference id) .reference) :=
  registering fun hs hu => (hs.registerMethod (Level.le_refl _) (Entity.isDefinition_reference id) hu).1

theorem methodDefinition {id : MemberIdentity} {d : MethodData} :
    Soundly m (Reading.registerMethod (.definition id d) .definition) :=
  registering fun hs hu => (hs.registerMethod (by decide)
    (Entity.isDefinition_definition id d (Level.le_refl _)) hu).1

/-! ### Reading entities -/

variable (s : Store)

theorem checkLevel {highest asked : Level} : Soundly m (Reading.checkLevel highest asked) :=
  ite refuse pure

theorem field (f : Option FieldId) (level : Level) : Soundly m (Reading.field s f level) := by
  cases f with
  | none => exact refuse
  | some f =>
      exact checkLevel.bind fun _ => (of_steady (Steady.fieldIdentity s f)).bind fun _ =>
        fieldReference.bind fun _ => ite pure ((of_steady (Steady.fieldData s _)).bind fun _ =>
          fieldDefinition.bind fun _ => pure)

theorem method (f : Option MethodId) (level : Level) : Soundly m (Reading.method s f level) := by
  cases f with
  | none => exact refuse
  | some f =>
      exact checkLevel.bind fun _ => (of_steady (Steady.methodIdentity s f)).bind fun _ =>
        methodReference.bind fun _ => ite pure ((of_steady (Steady.methodData s _)).bind fun _ =>
          methodDefinition.bind fun _ => pure)

theorem children (t : TypeId) (k : Token) (ns : List Token) :
    Soundly m (Reading.children s t k ns) := by
  refine (mapM _ fun f => field s f _).bind fun _ => (mapM _ fun f => method s f _).bind fun _ =>
    (mapM _ fun p => of_steady (Steady.property s p)).bind fun _ =>
      (mapM _ fun e => of_steady (Steady.event s e)).bind fun _ => bind_get fun ρ hs => ?_
  cases he : ρ.catalog.types.get k with
  | error e => exact refuse
  | ok e =>
      have hid := (hs.types.listed k e (TokenMap.get?_of_get he)).1
      exact ofExcept.bind fun _ => (typeDefinition hid (by decide)).bind fun _ => pure

theorem typeWithin (depth : Nat) (t : Option TypeId) (level : Level) :
    Soundly m (Reading.typeWithin s depth t level) := by
  induction depth generalizing t level with
  | zero => exact throw
  | succ depth ih =>
      cases t with
      | none => exact refuse
      | some t =>
          have hid : Normal (Reading.definitionIdentity s t) := definitionIdentity_normal s t
          have rest : ∀ k, Soundly m (do
              if level ≤ .definition then return k
              let nested ← (s.typeDef t).nestedTypes.mapM fun n =>
                Reading.typeWithin s depth (some n) level
              Reading.children s t k nested
              return k) := fun k =>
            ite pure ((mapM _ fun n => ih (some n) level).bind fun _ =>
              (children s t k _).bind fun _ => pure)
          exact checkLevel.bind fun _ => (of_steady (Steady.checkType s t)).bind fun _ =>
            (typeReference hid).bind fun _ => ite pure (ite
              ((of_steady (Steady.typeData s _)).bind fun _ =>
                (typeDefinition hid (Level.le_refl _)).bind fun _ => rest _) (rest _))

theorem serve (q : Reader.Request) : Soundly m (Reader.serve s q) := by
  cases q with
  | type t level => exact (typeWithin s _ t level).bind fun _ => pure
  | field f level => exact (field s f level).bind fun _ => pure
  | method f level => exact (method s f level).bind fun _ => pure
  | types ts level => exact (mapM ts fun t => typeWithin s _ t level).bind fun _ => pure
  | fields fs level => exact (mapM fs fun f => field s f level).bind fun _ => pure
  | methods fs level => exact (mapM fs fun f => method s f level).bind fun _ => pure
  | specification t =>
      cases t with
      | none => exact refuse
      | some t => exact (of_steady (Steady.typeSigTree s t)).bind fun _ => pure

end Soundly

/-- A reader begins with nothing and serves requests, and the live modules may change from one to the next. -/
inductive Reader.Arises (i : ImageId) (o : Options) : Reader → Prop
  | start : Arises i o (.start i o)
  | served {ρ : Reader} (h : Arises i o ρ) (s : Store) (q : Request) : Arises i o (ρ.after s q)

theorem Reader.Arises.sound {i : ImageId} {o : Options} (h : Arises i o ρ) (s : Store) :
    Sound ⟨s, i, o⟩ ρ := by
  induction h with
  | start => exact start_sound ⟨s, i, o⟩
  | served _ s' q ih => exact Soundly.serve s' q _ ih

end CilCatalog
