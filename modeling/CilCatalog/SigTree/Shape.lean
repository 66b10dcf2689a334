import CilCatalog.SigTree.Basic

/-!
# Shapes of argument lists

Every element type and every calling convention fixes what its arguments are: a `Shape`, a list of slots, each of which takes some arguments off the front.  An argument list fits if the slots take all of it.  The `parameters` slot is the only one that skips something: the `Sentinel` in front of the variable parameters is no parameter and is not counted.
-/

namespace CilCatalog

/-- Why an argument list does not fit; `owner` is the name of the node it belongs to. -/
inductive ShapeFault where
  | tooFew (owner : String)
  | tooMany (owner : String)
  | notInteger (position : Nat) (owner : String)
  | negative (position : Nat) (owner : String)
  | secondSentinel (owner : String)
deriving DecidableEq, Repr

namespace ShapeFault

def message : ShapeFault → Bytes
  | tooFew o         => "Too few arguments for '" ++ o ++ "'"
  | tooMany o        => "Too many arguments for '" ++ o ++ "'"
  | notInteger n o   => "Argument " ++ Bytes.decimal n ++ " of '" ++ o ++ "' must be an Int32"
  | negative n o     => "Argument " ++ Bytes.decimal n ++ " of '" ++ o ++ "' must not be negative"
  | secondSentinel o => "Duplicate Sentinel in '" ++ o ++ "'"

instance : Fault ShapeFault where
  kind _ := .invalidData
  message := message

end ShapeFault

/-- What one or more neighbouring arguments are. -/
inductive Slot where
  /-- Any tree. -/
  | node
  /-- An integer. -/
  | integer
  /-- An integer that is not negative. -/
  | count
  /-- A count and as many trees. -/
  | nodes
  /-- A count and as many integers. -/
  | integers
  /-- A count, the return type and as many parameters, with at most one `Sentinel` in front of one of them. -/
  | parameters
deriving DecidableEq, Repr

/-- What the arguments of a node are, from left to right. -/
abbrev Shape := List Slot

/-- The arguments of a non-leaf element type.  An array lists its sizes and then its lower bounds. -/
def ElementType.shape : ElementType → Shape
  | .ptr | .byRef | .fnPtr | .szArray | .pinned | .valueType | .cls => [.node]
  | .var | .mvar                                                   => [.integer]
  | .array                                                         =>
      [.node, .integer, .integers, .integers]
  | .genericInst                                                   => [.node, .nodes]
  | .valueArray                                                    => [.node, .integer]
  | .cmodReqd | .cmodOpt                                           => [.node, .node]
  | .module                                                        => [.integer, .node]
  | _                                                              => []

/-- Whether flags announce a number of generic parameters. -/
def hasGenericFlag (flags : Int32) : Bool :=
  flags &&& 0x10 != 0

/-- The arguments of a calling convention behind its flags. -/
def CallingConvention.shape (flags : Int32) : CallingConvention → Shape
  | .field                   => [.node]
  | .localSig | .genericInst => [.nodes]
  | _                        =>
      if hasGenericFlag flags then [.count, .parameters] else [.parameters]

/-- A place in an argument list: how many arguments are behind, and those ahead. -/
structure ArgCursor where
  position : Nat
  ahead : List SigTree

namespace ArgCursor

/-- The next argument. -/
def node (owner : String) (c : ArgCursor) : Except ShapeFault (SigTree × ArgCursor) :=
  match c.ahead with
  | []      => .error (.tooFew owner)
  | a :: as => .ok (a, ⟨c.position + 1, as⟩)

/-- The next argument, which is an integer. -/
def integer (owner : String) (c : ArgCursor) : Except ShapeFault (Int32 × ArgCursor) := do
  let (a, c) ← c.node owner
  match a.int32? with
  | some v => .ok (v, c)
  | none   => .error (.notInteger c.position owner)

/-- The next argument, which is a number of things. -/
def count (owner : String) (c : ArgCursor) : Except ShapeFault (Nat × ArgCursor) := do
  let (v, c) ← c.integer owner
  if v < 0 then .error (.negative c.position owner) else .ok (v.toInt.toNat, c)

/-- Past `n` trees. -/
def skipNodes (owner : String) : Nat → List SigTree → Nat → Except ShapeFault ArgCursor
  | pos, as,      0     => .ok ⟨pos, as⟩
  | _,   [],      _ + 1 => .error (.tooFew owner)
  | pos, _ :: as, n + 1 => skipNodes owner (pos + 1) as n

/-- Past `n` integers. -/
def skipIntegers (owner : String) : Nat → List SigTree → Nat → Except ShapeFault ArgCursor
  | pos, as,      0     => .ok ⟨pos, as⟩
  | _,   [],      _ + 1 => .error (.tooFew owner)
  | pos, a :: as, n + 1 =>
      match a.int32? with
      | some _ => skipIntegers owner (pos + 1) as n
      | none   => .error (.notInteger (pos + 1) owner)

/-- Past `n` parameters; `seen` says whether the marker is behind. -/
def skipParameters (owner : String) (seen : Bool) :
    Nat → List SigTree → Nat → Except ShapeFault ArgCursor
  | pos, as,      0     => .ok ⟨pos, as⟩
  | _,   [],      _ + 1 => .error (.tooFew owner)
  | pos, a :: as, n + 1 =>
      if a.isSentinel then
        if seen then .error (.secondSentinel owner)
        else skipParameters owner true (pos + 1) as (n + 1)
      else skipParameters owner seen (pos + 1) as n

end ArgCursor

namespace Slot

/-- Past the arguments a slot takes. -/
def skip (owner : String) (c : ArgCursor) : Slot → Except ShapeFault ArgCursor
  | node       => do return (← c.node owner).2
  | integer    => do return (← c.integer owner).2
  | count      => do return (← c.count owner).2
  | nodes      => do
      let (n, c) ← c.count owner
      ArgCursor.skipNodes owner c.position c.ahead n
  | integers   => do
      let (n, c) ← c.count owner
      ArgCursor.skipIntegers owner c.position c.ahead n
  | parameters => do
      let (n, c) ← c.count owner
      let (_, c) ← c.node owner
      ArgCursor.skipParameters owner false c.position c.ahead n

end Slot

namespace Shape

/-- Checks that the slots take exactly the arguments ahead. -/
def check (owner : String) : ArgCursor → Shape → Except ShapeFault Unit
  | c, []     => if c.ahead.isEmpty then .ok () else .error (.tooMany owner)
  | c, s :: r => do check owner (← s.skip owner c) r

end Shape

/-- Checks the arguments of a non-leaf element type. -/
def ElementType.checkArgs (e : ElementType) (as : List SigTree) : Except ShapeFault Unit :=
  e.shape.check e.name ⟨0, as⟩

/-- Checks the arguments of a calling convention: its flags, and what they announce. -/
def CallingConvention.checkArgs (k : CallingConvention) (as : List SigTree) :
    Except ShapeFault Unit := do
  let (flags, c) ← ArgCursor.integer k.name ⟨0, as⟩
  (k.shape flags).check k.name c

end CilCatalog
