import CilCatalog.SigTree.Basic
import CilCatalog.Writing.Basic

/-!
# Arguments of signature nodes

Counts and other integers inside a signature tree.  Each function takes the name of the node, the position of the next argument and the arguments from there on, and says what is wrong with the first one that does not fit.  The integer of a node is read only where the node is known to be one.
-/

namespace CilCatalog.Writing

/-- An argument that must be an integer. -/
def integerOf (node : String) (i : Nat) (a : SigTree) : Except (Failure ArgumentFault) Int32 :=
  if a.kind = .int32 then a.requireInt32 else .error (.fault (.notInteger node i))

/-- An argument that must be an integer, and not negative. -/
def unsignedOf (node : String) (i : Nat) (a : SigTree) : Except (Failure ArgumentFault) UInt32 := do
  let n ← integerOf node i a
  if n < 0 then .error (.fault (.negative node i)) else return n.toUInt32

/-- The next argument, if there is one, read by `read`, and those behind it. -/
def nextBy {α : Type} (read : String → Nat → SigTree → Except (Failure ArgumentFault) α) (node : String)
    (i : Nat) : List SigTree → Except (Failure ArgumentFault) (α × List SigTree)
  | []      => .error (.fault (.missing node i))
  | a :: as => do return (← read node i a, as)

/-- The next `n` arguments, each read by `read`, and those behind them. -/
def runBy {α : Type} (read : String → Nat → SigTree → Except (Failure ArgumentFault) α) (node : String) :
    Nat → Nat → List SigTree → Except (Failure ArgumentFault) (List α × List SigTree)
  | _, 0,     as      => .ok ([], as)
  | i, _ + 1, []      => .error (.fault (.missing node i))
  | i, n + 1, a :: as => do
      let v ← read node i a
      let (vs, rest) ← runBy read node (i + 1) n as
      return (v :: vs, rest)

/-- The number of arguments must be `due`. -/
def checkCount (node : String) (due found : Nat) : Except (Failure ArgumentFault) Unit :=
  if due = found then .ok () else .error (.fault (.count node due found))

/-- The dimensions of an array: rank, sizes and lower bounds. -/
structure ArrayShape where
  rank : UInt32
  sizes : List UInt32
  lowerBounds : List Int32

/-- The dimensions that the arguments of an array behind the first one state. -/
def ArrayShape.ofArguments (as : List SigTree) : Except (Failure ArgumentFault) ArrayShape := do
  let node := ElementType.array.name
  let (rank, rest) ← nextBy unsignedOf node 1 as
  let (m, rest) ← nextBy unsignedOf node 2 rest
  let (sizes, rest) ← runBy unsignedOf node 3 m.toNat rest
  let (n, rest) ← nextBy unsignedOf node (3 + m.toNat) rest
  let (lowerBounds, rest) ← runBy integerOf node (4 + m.toNat) n.toNat rest
  if rest.isEmpty then return ⟨rank, sizes, lowerBounds⟩
  else .error (.fault (.count node (4 + m.toNat + n.toNat) (1 + as.length)))

/-- The outcome of reading arguments. -/
def argument {α : Type} : Except (Failure ArgumentFault) α → Writing α
  | .ok a    => pure a
  | .error e => throw (e.map .argument)

end CilCatalog.Writing
