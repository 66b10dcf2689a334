import CilCatalog.Diagnostic.Basic

/-!
# Desks

A desk holds diagnostics under names and works on them one action at a time.  Clearing it gives up those that are left, in the order of their names.
-/

namespace CilCatalog

/-- Diagnostics in the order of their names. -/
abbrev Desk := List (Bytes × Diagnostic)

namespace Desk

/-- The diagnostic under a name; an empty one if there is none. -/
def at? (k : Desk) (name : Bytes) : Diagnostic := (k.lookup name).getD .empty

/-- With a diagnostic under a name, in place of the one there or where the order puts it. -/
def put (name : Bytes) (d : Diagnostic) : Desk → Desk
  | []          => [(name, d)]
  | (n, e) :: k =>
      match compare name n with
      | .lt => (name, d) :: (n, e) :: k
      | .eq => (name, d) :: k
      | .gt => (n, e) :: put name d k

/-- What can be done to the diagnostics on a desk. -/
inductive Action where
  /-- A new diagnostic takes the place of the one under the name, which is given up. -/
  | put (name : Bytes) (d : Diagnostic)
  | attach (name other : Bytes) (before : Bool)
  | print (name : Bytes)
  | printAttached (name : Bytes)
  | suppress (name : Bytes) (issueAttached : Bool)
  /-- One diagnostic overwrites another and is moved away. -/
  | move (name other : Bytes)
  | giveUp (name : Bytes)

/-- The name of the diagnostic that an action is about. -/
def Action.name : Action → Bytes
  | put n _           => n
  | attach n _ _      => n
  | print n           => n
  | printAttached n   => n
  | suppress n _      => n
  | move n _          => n
  | giveUp n          => n

/-- A desk with a changed diagnostic, and what was issued by the change. -/
def settle (k : Desk) (name : Bytes) (o : Diagnostic.Outcome) : List Report × Desk :=
  (o.issued, k.put name o.left)

/-- One action. -/
def act (k : Desk) : Action → List Report × Desk
  | .put n d             => ((k.at? n).givingUp, k.put n d)
  | .attach n other before =>
      let d := (k.at? n).attach (k.at? other) before
      ([], (k.put other (k.at? other).moved).put n d)
  | .print n             => k.settle n (k.at? n).print
  | .printAttached n     => k.settle n (k.at? n).printAttached
  | .suppress n attached => k.settle n ((k.at? n).suppress attached)
  | .move n other        =>
      if n = other then ([], k)
      else (k.put other (k.at? other).moved).settle n ((k.at? n).overwrite (k.at? other))
  | .giveUp n            => ((k.at? n).givingUp, k.filter (·.1 != n))

/-- What clearing the desk issues. -/
def clearing (k : Desk) : List Report := k.flatMap fun e => e.2.givingUp

end Desk

end CilCatalog
