import CilCatalog.Failure

/-!
# Outcomes

When a sequence of operations that may fail succeeds, and when a conversion of failures does.
What a reader of texts or documents ends with: a result it answers for, or a fault of malformed input.  `Reads P x` says so of one computation, and `Refuses x` of one whose results do not matter.  `Unbroken x` says less: whatever is wrong, it is not the program.
-/

namespace CilCatalog

section Sequences

variable {ε φ ψ α β : Type}

/-- A sequence succeeds exactly if its first operation does and then the second. -/
theorem bind_eq_ok {x : Except ε α} {f : α → Except ε β} {b : β} :
    (x >>= f) = .ok b ↔ ∃ a, x = .ok a ∧ f a = .ok b := by
  cases x with
  | ok a => exact ⟨fun h => ⟨a, rfl, h⟩, fun ⟨_, h, h'⟩ => by cases h; exact h'⟩
  | error e => exact ⟨nofun, nofun⟩

/-- A sequence fails with what the first of its operations to fail fails with. -/
theorem bind_eq_error {x : Except ε α} {f : α → Except ε β} {e : ε} :
    (x >>= f) = .error e ↔ x = .error e ∨ ∃ a, x = .ok a ∧ f a = .error e := by
  cases x with
  | ok a =>
      refine ⟨fun h => .inr ⟨a, rfl, h⟩, fun h => ?_⟩
      obtain h | ⟨_, h, h'⟩ := h
      · exact nomatch h
      · cases h; exact h'
  | error d =>
      refine ⟨fun h => .inl (by cases h; rfl), fun h => ?_⟩
      obtain h | ⟨_, h, _⟩ := h
      · cases h; rfl
      · exact nomatch h

/-- A sequence whose second operation succeeds fails exactly if its first one does. -/
theorem exists_bind_eq_error {x : Except ε α} {f : α → Except ε β} (hf : ∀ a, ∃ b, f a = .ok b) :
    (∃ e, (x >>= f) = .error e) ↔ ∃ e, x = .error e := by
  refine exists_congr fun e => ?_
  rw [bind_eq_error, or_iff_left]
  rintro ⟨a, -, ha⟩
  obtain ⟨b, hb⟩ := hf a
  rw [hb] at ha
  exact nomatch ha

@[simp] theorem mapError_ok (f : ε → ψ) (a : α) : (Except.ok a : Except ε α).mapError f = .ok a := rfl

theorem mapError_eq_ok {f : ε → ψ} {x : Except ε α} {a : α} : x.mapError f = .ok a ↔ x = .ok a := by
  cases x with
  | ok b => rw [mapError_ok, Except.ok.injEq, Except.ok.injEq]
  | error e => exact ⟨nofun, nofun⟩

@[simp] theorem ok_bind (a : α) (f : α → Except ε β) : (Except.ok a >>= f) = f a := rfl

theorem pure_eq_ok {a b : α} : (pure a : Except ε α) = .ok b ↔ a = b :=
  ⟨fun h => by cases h; rfl, fun h => by rw [h]; rfl⟩

theorem Failure.lift_eq_ok {wrap : ε → ψ} {x : Except ε α} {a : α} :
    Failure.lift wrap x = .ok a ↔ x = .ok a := by
  cases x with
  | ok b => rw [Failure.lift, Except.ok.injEq, Except.ok.injEq]
  | error f => exact ⟨nofun, nofun⟩

end Sequences

section Refusals

variable {φ α β : Type}

/-! ### Contracts -/

/-- No contract is broken: there is a result, or a fault that says what is wrong. -/
def Unbroken (x : Except (Failure φ) α) : Prop := ∀ m, x ≠ .error (.internal m)

@[simp] theorem unbroken_ok (a : α) : Unbroken (.ok a : Except (Failure φ) α) := fun _ => nofun

@[simp] theorem unbroken_fault (f : φ) : Unbroken (.error (.fault f) : Except (Failure φ) α) :=
  fun _ => nofun

/-- What has to hold of a computation that fails. -/
theorem unbroken_iff {x : Except (Failure φ) α} :
    Unbroken x ↔ ∀ e, x = .error e → ∃ f, e = .fault f := by
  constructor
  · rintro h (f | m) he
    · exact ⟨f, rfl⟩
    · exact absurd he (h m)
  · intro h m hm
    obtain ⟨f, hf⟩ := h _ hm
    exact nomatch hf

theorem Unbroken.bind {x : Except (Failure φ) α} {g : α → Except (Failure φ) β} (hx : Unbroken x)
    (hg : ∀ a, Unbroken (g a)) : Unbroken (x >>= g) := by
  cases x with
  | ok a => exact hg a
  | error e =>
      obtain ⟨f, rfl⟩ := unbroken_iff.1 hx e rfl
      exact unbroken_fault f

/-! ### Malformed input -/

variable [Fault φ]

/-- A result has the property `P`, and a failure is a fault of malformed input. -/
def Reads (P : α → Prop) : Except (Failure φ) α → Prop
  | .ok a    => P a
  | .error e => ∃ f, e = .fault f ∧ Fault.kind f = .invalidData

/-- A failure is a fault of malformed input. -/
abbrev Refuses (x : Except (Failure φ) α) : Prop := Reads (fun _ => True) x

theorem Reads.fault {P : α → Prop} {x : Except (Failure φ) α} (h : Reads P x) {e : Failure φ}
    (he : x = .error e) : ∃ f, e = .fault f ∧ Fault.kind f = .invalidData := by
  rw [he] at h
  exact h

theorem Reads.result {P : α → Prop} {x : Except (Failure φ) α} (h : Reads P x) {a : α}
    (ha : x = .ok a) : P a := by
  rw [ha] at h
  exact h

theorem Reads.unbroken {P : α → Prop} {x : Except (Failure φ) α} (h : Reads P x) : Unbroken x :=
  unbroken_iff.2 fun _ he => (h.fault he).imp fun _ hf => hf.1

theorem Reads.bind {P : α → Prop} {Q : β → Prop} {x : Except (Failure φ) α}
    {g : α → Except (Failure φ) β} (hx : Reads P x) (hg : ∀ a, P a → Reads Q (g a)) :
    Reads Q (x >>= g) := by
  cases x with
  | ok a => exact hg a hx
  | error e => exact hx

@[simp] theorem refuses_ok (a : α) : Refuses (.ok a : Except (Failure φ) α) := trivial

@[simp] theorem refuses_pure (a : α) : Refuses (pure a : Except (Failure φ) α) := trivial

@[simp] theorem refuses_map {x : Except (Failure φ) α} {f : α → β} :
    Refuses (f <$> x) ↔ Refuses x := by
  cases x <;> rfl

/-- What comes second counts only where the first gives a result. -/
@[simp] theorem refuses_bind {x : Except (Failure φ) α} {g : α → Except (Failure φ) β}
    (hx : Refuses x) : Refuses (x >>= g) ↔ ∀ a, x = .ok a → Refuses (g a) := by
  cases x with
  | ok a => exact ⟨by rintro h _ ⟨⟩; exact h, fun h => h a rfl⟩
  | error e => exact ⟨fun _ => nofun, fun _ => hx⟩

theorem refuses_mapM {δ : Type} {f : δ → Except (Failure φ) α} (h : ∀ d, Refuses (f d))
    (ds : List δ) : Refuses (ds.mapM f) := by
  induction ds with
  | nil => exact refuses_ok []
  | cons d ds ih =>
      rw [List.mapM_cons, refuses_bind (h d)]
      exact fun a _ => (refuses_bind ih).2 fun as _ => refuses_pure _

end Refusals

end CilCatalog
