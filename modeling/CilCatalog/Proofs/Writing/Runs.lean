import CilCatalog.Proofs.Writing.Settled

/-!
# Computations that do acts

`Runs I` says of a computation that it does nothing but acts, whether it succeeds or fails, and what is so if it succeeds.  It is started in a state in which `I` holds, which acts keep; the writer asks nothing then.  To write a signature, `WriteState.Calm` is enough; where members are written, the module must be as it should be (`WriteState.Ready`).
-/

namespace CilCatalog

open Live Writing
open WriteState (Keeping)

/-- A writer in a state where `I` holds does nothing but acts; if it succeeds, what it gives is as it should be. -/
def Runs {α : Type} (I : WriteState → Prop) (w : WriteState) (x : Writing α)
    (Q : WriteState → α → Prop) : Prop :=
  I w → w.Leads (x w).2 ∧ ∀ a, (x w).1 = .ok a → Q (x w).2 a

namespace Runs

variable {I : WriteState → Prop} {w w' : WriteState} {α β : Type} {x : Writing α} {P Q : WriteState → α → Prop}

theorem pure {a : α} (h : Q w a) : Runs I w (pure a : Writing α) Q := by
  intro _
  refine ⟨.refl w, ?_⟩
  rintro _ ⟨⟩
  exact h

theorem throw {f : Failure WriteFault} : Runs I w (throw f : Writing α) Q := by
  intro _
  refine ⟨.refl w, ?_⟩
  rintro _ ⟨⟩

theorem refuse {f : WriteFault} : Runs I w (Writing.refuse f : Writing α) Q := throw

theorem bind [Keeping I] {f : α → Writing β} {R : WriteState → β → Prop} (hx : Runs I w x P)
    (hf : ∀ {a w'}, w.Leads w' → P w' a → Runs I w' (f a) R) : Runs I w (x >>= f) R := by
  intro hw
  obtain ⟨hl, hP⟩ := hx hw
  cases h : x w with
  | mk r w₁ =>
      rw [h] at hl hP
      cases r with
      | error e =>
          rw [run_bind_error h]
          refine ⟨hl, ?_⟩
          rintro _ ⟨⟩
      | ok a =>
          rw [run_bind_ok h]
          obtain ⟨hl', hR⟩ := hf hl (hP a rfl) (hl.keeps hw)
          exact ⟨hl.trans hl', hR⟩

theorem imp (hx : Runs I w x P) (h : ∀ {w' a}, P w' a → Q w' a) : Runs I w x Q := by
  intro hw
  obtain ⟨hl, hP⟩ := hx hw
  exact ⟨hl, fun a ha => h (hP a ha)⟩

theorem and (hx : Runs I w x P) (hx' : Runs I w x Q) : Runs I w x fun w' a => P w' a ∧ Q w' a :=
  fun hw => ⟨(hx hw).1, fun a ha => ⟨(hx hw).2 a ha, (hx' hw).2 a ha⟩⟩

/-- What acts keep is so where a computation ends. -/
theorem kept [Keeping I] (hx : Runs I w x Q) : Runs I w x fun w' a => Q w' a ∧ I w' := by
  intro hw
  obtain ⟨hl, hQ⟩ := hx hw
  exact ⟨hl, fun a ha => ⟨hQ a ha, hl.keeps hw⟩⟩

theorem ite {p : Prop} [Decidable p] {y : Writing α} (hx : p → Runs I w x Q)
    (hy : ¬ p → Runs I w y Q) : Runs I w (if p then x else y) Q := by
  split
  · next h => exact hx h
  · next h => exact hy h

/-- What succeeds, if it does, has done nothing but acts. -/
theorem leads (hx : Runs I w x Q) (hw : I w) {a : α} (h : Gives x w a w') :
    w.Leads w' ∧ Q w' a := by
  have hx := hx hw
  rw [show x w = (.ok a, w') from h] at hx
  exact ⟨hx.1, hx.2 a rfl⟩

/-- What is asked of a result may be shown of the runs that succeed. -/
theorem of_gives (hx : Runs I w x P) (h : ∀ {a w'}, I w → Gives x w a w' → Q w' a) :
    Runs I w x Q := fun hw => ⟨(hx hw).1, fun _ ha => h hw (Prod.ext ha rfl)⟩

theorem mapM [Keeping I] {f : α → Writing β} {R : WriteState → β → Prop} {as : List α}
    (hf : ∀ a ∈ as, ∀ {w}, Runs I w (f a) R) (hR : ∀ {w w' b}, R w b → w.Leads w' → R w' b) :
    Runs I w (as.mapM f) fun w' bs => ∀ b ∈ bs, R w' b := by
  induction as generalizing w with
  | nil => exact pure nofun
  | cons a as ih =>
      rw [List.forall_mem_cons] at hf
      rw [List.mapM_cons]
      exact hf.1.bind fun _ hb => (ih hf.2).bind fun hl hbs =>
        pure (List.forall_mem_cons.2 ⟨hR hb hl, hbs⟩)

/-- Computations that do nothing, one after the other. -/
theorem mapM_still [Keeping I] {f : α → Writing β} {R : β → Prop} {as : List α}
    (hf : ∀ a ∈ as, Runs I w (f a) fun w' b => w' = w ∧ R b) :
    Runs I w (as.mapM f) fun w' bs => w' = w ∧ ∀ b ∈ bs, R b := by
  induction as with
  | nil => exact pure ⟨rfl, nofun⟩
  | cons a as ih =>
      rw [List.forall_mem_cons] at hf
      rw [List.mapM_cons]
      refine hf.1.bind ?_
      rintro _ _ - ⟨rfl, hb⟩
      refine (ih hf.2).bind ?_
      rintro _ _ - ⟨rfl, hbs⟩
      exact pure ⟨rfl, List.forall_mem_cons.2 ⟨hb, hbs⟩⟩

/-- Computations of whose results nothing is asked. -/
theorem each [Keeping I] {f : α → Writing β} {as : List α} (hf : ∀ a ∈ as, ∀ {w}, Runs I w (f a) fun _ _ => True) :
    Runs I w (as.mapM f) fun _ _ => True :=
  (mapM hf fun h _ => h).imp fun _ => trivial

theorem eachOf [Keeping I] {f : α → Writing β} {o : Option α} (hf : ∀ a, Runs I w (f a) fun _ _ => True) :
    Runs I w (o.mapM f) fun _ _ => True := by
  cases o with
  | none => exact pure trivial
  | some a =>
      rw [Option.mapM_some, map_eq_pure_bind]
      exact (hf a).bind fun _ _ => pure trivial

/-! ### Elementary computations -/

theorem bind_store {f : Live.Store → Writing α} (h : Runs I w (f w.store) Q) :
    Runs I w (Writing.store >>= f) Q := by
  intro hw
  rw [run_bind_ok (gives_store.2 ⟨rfl, rfl⟩)]
  exact h hw

theorem bind_writer {f : Writer → Writing α} (h : Runs I w (f w.writer) Q) :
    Runs I w (Writing.writer >>= f) Q := by
  intro hw
  rw [run_bind_ok (gives_writer.2 ⟨rfl, rfl⟩)]
  exact h hw

theorem bind_lookUp {named : Bool} {m : TokenMap named β} {t : Token} {f : β → Writing α}
    (h : ∀ {b}, m.get? t = some b → Runs I w (f b) Q) : Runs I w (Writing.lookUp m t >>= f) Q := by
  intro hw
  cases hm : m.get t with
  | ok b =>
      have hb := TokenMap.get?_of_get hm
      rw [run_bind_ok (gives_lookUp.2 ⟨hb, rfl⟩)]
      exact h hb hw
  | error e =>
      have he : Writing.lookUp m t w = (.error (.fault (.store e)), w) := by
        rw [Writing.lookUp, hm]
        rfl
      rw [run_bind_error he]
      refine ⟨.refl w, ?_⟩
      rintro _ ⟨⟩

theorem bind_argument {e : Except (Failure ArgumentFault) β} {f : β → Writing α}
    (h : ∀ {b}, e = .ok b → Runs I w (f b) Q) : Runs I w (Writing.argument e >>= f) Q := by
  intro hw
  cases e with
  | ok b => exact h rfl hw
  | error e =>
      refine ⟨.refl w, ?_⟩
      rintro _ ⟨⟩

/-- What is refused is not gone on with. -/
theorem guard [Keeping I] {p : Prop} [Decidable p] {e : WriteFault} {f : PUnit → Writing α}
    (h : ¬ p → Runs I w (f ⟨⟩) Q) :
    Runs I w (if p then Writing.refuse e >>= f else f ⟨⟩) Q :=
  ite (fun _ => refuse.bind (P := fun _ _ => False) fun _ h => h.elim) h

theorem bind_askable {b : Bool} {f : Unit → Writing α} (h : b = false → Runs I w (f ()) Q) :
    Runs I w (Writing.askable b >>= f) Q := by
  cases b with
  | true => exact throw
  | false => exact h rfl

theorem bind_checkLevel [Keeping I] {highest asked : Level} {f : Unit → Writing α} (h : Runs I w (f ()) Q) :
    Runs I w (Writing.checkLevel highest asked >>= f) Q := by
  refine bind (P := fun w' _ => w' = w) (ite (fun _ => refuse) fun _ => pure rfl) ?_
  rintro _ _ - rfl
  exact h

theorem making {make : Live.ImageId → Live.Store → α × Live.Store}
    (h : w.Act (w.inStore (make w.writer.image w.store).2))
    (hQ : I w → Q (w.inStore (make w.writer.image w.store).2) (make w.writer.image w.store).1) :
    Runs I w (Writing.making make) Q := by
  intro hw
  refine ⟨h.leads, ?_⟩
  rintro _ ⟨⟩
  exact hQ hw

theorem modifyStore {f : Live.Store → Live.Store} (h : w.Act (w.inStore (f w.store))) :
    Runs I w (Writing.modifyStore f) fun w' _ => w' = w.inStore (f w.store) := by
  intro _
  refine ⟨h.leads, ?_⟩
  rintro _ ⟨⟩
  rfl

theorem modifyWriter {f : Writer → Writer} (h : w.Act { w with writer := f w.writer }) :
    Runs I w (Writing.modifyWriter f) fun w' _ => w' = { w with writer := f w.writer } := by
  intro _
  refine ⟨h.leads, ?_⟩
  rintro _ ⟨⟩
  rfl

end Runs

end CilCatalog
