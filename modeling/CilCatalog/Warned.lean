import CilCatalog.Failure

/-!
# Results with warnings

A computation that may fail and, failing or not, leaves the warnings it raised on its way.
-/

namespace CilCatalog

/-- What a conversion may warn of. -/
inductive Warning where
  /-- A 32-bit NaN changes when it is widened and narrowed again. -/
  | widening (bits : UInt32)
  /-- A 64-bit NaN changes when it is narrowed and widened again. -/
  | narrowing (bits : UInt64)
deriving DecidableEq, Repr

def Warning.message : Warning → Bytes
  | widening b  =>
      "Widening NaN 0x" ++ Bytes.hexadecimalUpper 8 b.toNat ++ " to double loses its payload"
  | narrowing b =>
      "Narrowing NaN 0x" ++ Bytes.hexadecimalUpper 16 b.toNat ++ " to float loses its payload"

/-- A result, or a failure, with the warnings raised before it. -/
structure Warned (ε α : Type) where
  warnings : List Warning
  result : Except ε α

namespace Warned

variable {ε δ α β : Type}

/-- A result without warnings. -/
def ofExcept (r : Except ε α) : Warned ε α := ⟨[], r⟩

/-- A failure without warnings. -/
def fail (e : ε) : Warned ε α := ⟨[], .error e⟩

/-- A warning. -/
def warn (w : Warning) : Warned ε Unit := ⟨[w], .ok ()⟩

def bind (x : Warned ε α) (f : α → Warned ε β) : Warned ε β :=
  match x.result with
  | .ok a    => ⟨x.warnings ++ (f a).warnings, (f a).result⟩
  | .error e => ⟨x.warnings, .error e⟩

instance : Monad (Warned ε) where
  pure a := ⟨[], .ok a⟩
  bind := bind

instance : MonadExceptOf ε (Warned ε) where
  throw := fail
  tryCatch x h :=
    match x.result with
    | .ok _    => x
    | .error e => ⟨x.warnings ++ (h e).warnings, (h e).result⟩

instance : MonadLift (Except ε) (Warned ε) := ⟨ofExcept⟩

/-- The same with the failure as part of a wider area. -/
def mapError (f : ε → δ) (x : Warned ε α) : Warned δ α := ⟨x.warnings, x.result.mapError f⟩

theorem pure_bind (a : α) (f : α → Warned ε β) : (pure a >>= f : Warned ε β) = f a := by
  change bind ⟨[], .ok a⟩ f = f a
  simp [bind]

theorem fail_bind (e : ε) (f : α → Warned ε β) : (fail e >>= f : Warned ε β) = fail e := rfl

theorem bind_pure (x : Warned ε α) : (x >>= pure : Warned ε α) = x := by
  obtain ⟨ws, r⟩ := x
  change bind ⟨ws, r⟩ pure = ⟨ws, r⟩
  cases r <;> simp [bind, pure]

theorem bind_assoc {γ : Type} (x : Warned ε α) (f : α → Warned ε β) (g : β → Warned ε γ) :
    (x >>= f >>= g : Warned ε γ) = x >>= fun a => f a >>= g := by
  obtain ⟨ws, r⟩ := x
  change bind (bind ⟨ws, r⟩ f) g = bind ⟨ws, r⟩ fun a => bind (f a) g
  cases r with
  | error e => simp [bind]
  | ok a =>
      simp only [bind]
      cases (f a).result <;> simp

instance : LawfulMonad (Warned ε) :=
  LawfulMonad.mk' _ (fun x => bind_pure x) pure_bind bind_assoc

end Warned

end CilCatalog
