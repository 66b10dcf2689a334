import CilCatalog.Bytes

/-!
# Failure

How operations fail.  A *fault* is a cause of the area it arises in, with a kind and a wording; an *internal failure* says that an operation was used against its contract, which no input of its callers is meant to bring about.
-/

namespace CilCatalog

/-- The four kinds of fault. -/
inductive ErrorKind where
  /-- A required value is missing, or a value is out of range. -/
  | invalidArgument
  /-- Malformed input: bad text, unknown codes, wrong arity. -/
  | invalidData
  /-- A construct the portable format cannot represent. -/
  | unsupported
  /-- The call is not valid in the current state. -/
  | invalidOperation
deriving DecidableEq, Repr

namespace ErrorKind

def name : ErrorKind → String
  | invalidArgument  => "invalid-argument"
  | invalidData      => "invalid-data"
  | unsupported      => "unsupported"
  | invalidOperation => "invalid-operation"

/-- The number of a kind; 0 is left for "no kind". -/
def code : ErrorKind → Nat
  | invalidArgument  => 1
  | invalidData      => 2
  | unsupported      => 3
  | invalidOperation => 4

/-- The kind with number `n`. -/
def ofCode? : Nat → Option ErrorKind
  | 1 => some invalidArgument
  | 2 => some invalidData
  | 3 => some unsupported
  | 4 => some invalidOperation
  | _ => none

/-- The name of kind number `n`; a number without a kind has a name of its own. -/
def nameOfCode (n : Nat) : String := ((ofCode? n).map name).getD "ICE: INVALID ERROR ID"

theorem ofCode?_code (k : ErrorKind) : ofCode? k.code = some k := by
  cases k <;> rfl

end ErrorKind

/-- Causes of failure that know their kind and their wording. -/
class Fault (φ : Type) where
  kind : φ → ErrorKind
  message : φ → Bytes

/-- A fault, or a breach of contract with the message of the check that noticed it. -/
inductive Failure (φ : Type) where
  | fault (f : φ)
  | internal (message : Option Bytes)
deriving DecidableEq

namespace Failure

variable {φ ψ α : Type}

/-- The same failure as part of a wider area. -/
def map (wrap : φ → ψ) : Failure φ → Failure ψ
  | fault f    => fault (wrap f)
  | internal m => internal m

/-- A failed check without a message. -/
def unexplained : Failure φ := internal none

/-- A failed check. -/
def breach (message : Bytes) : Failure φ := internal (some message)

/-- Faults of an area as failures of a wider one. -/
def lift (wrap : φ → ψ) : Except φ α → Except (Failure ψ) α
  | .ok a    => .ok a
  | .error f => .error (fault (wrap f))

/-- Failures of an area as failures of a wider one. -/
def widen (wrap : φ → ψ) : Except (Failure φ) α → Except (Failure ψ) α
  | .ok a    => .ok a
  | .error f => .error (f.map wrap)

end Failure

end CilCatalog
