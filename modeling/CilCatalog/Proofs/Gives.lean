import CilCatalog.Proofs.Outcome

/-!
# Successful runs

Readers and writers are computations that may fail and keep a state.  `Gives x a v b` says that `x`, started in the state `a`, succeeds with `v` and leaves the state `b`.  Each way to put computations together has a lemma that takes such a run apart again; failing runs are of no interest here.
-/

namespace CilCatalog

variable {ε σ α β : Type}

/-- Started in `a`, the computation gives `v` and leaves `b`. -/
def Gives (x : ExceptT ε (StateM σ) α) (a : σ) (v : α) (b : σ) : Prop := x a = (.ok v, b)

@[simp] theorem gives_pure {v w : α} {a b : σ} :
    Gives (pure v : ExceptT ε (StateM σ) α) a w b ↔ w = v ∧ b = a := by
  change ((.ok v, a) : Except ε α × σ) = (.ok w, b) ↔ _
  simp [eq_comm]

/-- What stands behind a computation that succeeds goes on in the state it leaves. -/
theorem run_bind_ok {x : ExceptT ε (StateM σ) α} {a b : σ} {v : α} (h : x a = (.ok v, b))
    (f : α → ExceptT ε (StateM σ) β) : (x >>= f) a = f v b := by
  change (ExceptT.bindCont f (x a).1) (x a).2 = _
  rw [h]
  rfl

/-- What stands behind a computation that fails is not run. -/
theorem run_bind_error {x : ExceptT ε (StateM σ) α} {a b : σ} {e : ε} (h : x a = (.error e, b))
    (f : α → ExceptT ε (StateM σ) β) : (x >>= f) a = (.error e, b) := by
  change (ExceptT.bindCont f (x a).1) (x a).2 = _
  rw [h]
  rfl

@[simp] theorem gives_bind {x : ExceptT ε (StateM σ) α} {f : α → ExceptT ε (StateM σ) β} {a c : σ}
    {w : β} : Gives (x >>= f) a w c ↔ ∃ v b, Gives x a v b ∧ Gives (f v) b w c := by
  unfold Gives
  cases h : x a with
  | mk r b =>
      cases r with
      | ok v =>
          rw [run_bind_ok h]
          constructor
          · exact fun hf => ⟨v, b, rfl, hf⟩
          · rintro ⟨_, _, ⟨⟩, hf⟩
            exact hf
      | error e =>
          rw [run_bind_error h]
          constructor
          · exact nofun
          · rintro ⟨_, _, ⟨⟩, -⟩

theorem gives_bind_pure {x : ExceptT ε (StateM σ) α} {f : α → β} {a b : σ} {w : β} :
    Gives (x >>= fun v => pure (f v)) a w b ↔ ∃ v, Gives x a v b ∧ w = f v := by
  rw [gives_bind]
  constructor
  · rintro ⟨v, c, hx, h⟩
    obtain ⟨rfl, rfl⟩ := gives_pure.1 h
    exact ⟨v, hx, rfl⟩
  · rintro ⟨v, hx, rfl⟩
    exact ⟨v, b, hx, gives_pure.2 ⟨rfl, rfl⟩⟩

@[simp] theorem gives_map {x : ExceptT ε (StateM σ) α} {f : α → β} {a b : σ} {w : β} :
    Gives (f <$> x) a w b ↔ ∃ v, Gives x a v b ∧ w = f v := by
  rw [map_eq_pure_bind, gives_bind_pure]

@[simp] theorem gives_throw {e : ε} {a b : σ} {v : α} :
    ¬ Gives (throw e : ExceptT ε (StateM σ) α) a v b := nofun

@[simp] theorem gives_ofExcept {r : Except ε α} {a b : σ} {v : α} :
    Gives (MonadExcept.ofExcept r : ExceptT ε (StateM σ) α) a v b ↔ r = .ok v ∧ b = a := by
  cases r with
  | ok w =>
      rw [Except.ok.injEq, eq_comm]
      exact gives_pure
  | error e => exact ⟨nofun, nofun⟩

@[simp] theorem gives_get {a b v : σ} :
    Gives (get : ExceptT ε (StateM σ) σ) a v b ↔ v = a ∧ b = a := by
  change ((.ok a, a) : Except ε σ × σ) = (.ok v, b) ↔ _
  simp [eq_comm]

@[simp] theorem gives_set {a b c : σ} {u : PUnit} :
    Gives (set c : ExceptT ε (StateM σ) PUnit) a u b ↔ b = c := by
  change ((.ok ⟨⟩, c) : Except ε PUnit × σ) = (.ok u, b) ↔ _
  simp [eq_comm]

@[simp] theorem gives_modify {f : σ → σ} {a b : σ} {u : PUnit} :
    Gives (modify f : ExceptT ε (StateM σ) PUnit) a u b ↔ b = f a := by
  change ((.ok ⟨⟩, f a) : Except ε PUnit × σ) = (.ok u, b) ↔ _
  simp [eq_comm]

@[simp] theorem gives_mapM_nil {f : α → ExceptT ε (StateM σ) β} {a b : σ} {ws : List β} :
    Gives (([] : List α).mapM f) a ws b ↔ ws = [] ∧ b = a := by
  rw [List.mapM_nil, gives_pure]

@[simp] theorem gives_mapM_cons {f : α → ExceptT ε (StateM σ) β} {v : α} {vs : List α} {a c : σ}
    {ws : List β} : Gives ((v :: vs).mapM f) a ws c ↔
      ∃ w b ws', Gives (f v) a w b ∧ Gives (vs.mapM f) b ws' c ∧ ws = w :: ws' := by
  rw [List.mapM_cons, gives_bind]
  constructor
  · rintro ⟨w, b, hw, h⟩
    obtain ⟨ws', c', hws, h⟩ := gives_bind.1 h
    obtain ⟨rfl, rfl⟩ := gives_pure.1 h
    exact ⟨w, b, ws', hw, hws, rfl⟩
  · rintro ⟨w, b, ws', hw, hws, rfl⟩
    exact ⟨w, b, hw, gives_bind.2 ⟨ws', c, hws, gives_pure.2 ⟨rfl, rfl⟩⟩⟩

/-- A computation that does not fail gives something. -/
theorem gives_of_isOk {x : ExceptT ε (StateM σ) α} {a : σ} (h : (x a).1.isOk = true) :
    ∃ v, Gives x a v (x a).2 := by
  cases hx : (x a).1 with
  | ok v => exact ⟨v, Prod.ext hx rfl⟩
  | error e =>
      rw [hx] at h
      exact absurd h Bool.false_ne_true

/-- A computation has one outcome. -/
theorem Gives.unique {x : ExceptT ε (StateM σ) α} {a b b' : σ} {v v' : α} (h : Gives x a v b)
    (h' : Gives x a v' b') : v = v' ∧ b = b' := by
  have : ((.ok v, b) : Except ε α × σ) = (.ok v', b') := h.symm.trans h'
  cases this
  exact ⟨rfl, rfl⟩

end CilCatalog
