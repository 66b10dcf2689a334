import CilCatalog.Failure

/-!
# Diagnostics

A diagnostic is a message that is issued once: when it is printed, or else when it is given up.  Others may be attached to it and are issued with it, each ahead of it or behind it.  A diagnostic that has been issued, or has been suppressed, has no severity any more.
-/

namespace CilCatalog

/-- How grave a diagnostic is. -/
inductive Severity where
  /-- Nothing to issue. -/
  | none
  | note
  | warning
  | error
  /-- Ends the program, which is not at fault. -/
  | fatal
  /-- Ends the program, which is at fault. -/
  | internal
deriving DecidableEq, Repr, Inhabited

namespace Severity

def code : Severity → Nat
  | none     => 0
  | note     => 1
  | warning  => 2
  | error    => 3
  | fatal    => 4
  | internal => 5

def all : List Severity := [none, note, warning, error, fatal, internal]

/-- The severity with number `n`. -/
def ofCode? (n : Nat) : Option Severity := all.find? (·.code == n)

def label : Severity → String
  | none     => "Diagnostic"
  | note     => "Note"
  | warning  => "Warning"
  | error    => "Error"
  | fatal    => "Fatal Error"
  | internal => "Internal Error"

/-- Whether issuing a diagnostic of this severity ends the program. -/
def endsProgram : Severity → Bool
  | fatal | internal => true
  | _                => false

theorem ofCode?_code (s : Severity) : ofCode? s.code = some s := by
  cases s <;> decide

end Severity

/-- A diagnostic that has been issued: its severity, the number of its error kind, which is 0 if it has none, and its text. -/
structure Report where
  severity : Severity
  error : Nat
  text : Bytes
deriving DecidableEq, Repr

/-- The line that is printed. -/
def Report.line (r : Report) : Bytes :=
  let kind : Bytes := if r.error = 0 then [] else " [" ++ ErrorKind.nameOfCode r.error ++ "]"
  utf8 r.severity.label ++ kind ++ utf8 ": " ++ r.text ++ [0x0A]

/-- A message with its severity and the number of its error kind, and the attached ones, each with whether it is issued ahead. -/
inductive Diagnostic where
  | mk (severity : Severity) (error : Nat) (text : Bytes) (attached : List (Diagnostic × Bool))

namespace Diagnostic

def severity : Diagnostic → Severity
  | mk s _ _ _ => s

def error : Diagnostic → Nat
  | mk _ e _ _ => e

def text : Diagnostic → Bytes
  | mk _ _ t _ => t

def attached : Diagnostic → List (Diagnostic × Bool)
  | mk _ _ _ as => as

/-- A diagnostic without anything to issue. -/
def empty : Diagnostic := mk .none 0 [] []

instance : Inhabited Diagnostic := ⟨empty⟩

/-- What is issued of the diagnostic itself. -/
def report (d : Diagnostic) : Report := ⟨d.severity, d.error, d.text⟩

/-! ### What is issued -/

mutual

/-- What printing issues: those attached to go ahead, the diagnostic itself and those attached to follow; and then what giving up the attached ones issues, which are done with. -/
def printing : Diagnostic → List Report
  | mk .none _ _ _ => []
  | mk s e t as    => ahead as ++ ⟨s, e, t⟩ :: behind as ++ leftovers as

/-- What printing those that go ahead issues. -/
def ahead : List (Diagnostic × Bool) → List Report
  | []                => []
  | (d, before) :: as => (if before then printing d else []) ++ ahead as

/-- What printing those that follow issues. -/
def behind : List (Diagnostic × Bool) → List Report
  | []                => []
  | (d, before) :: as => (if before then [] else printing d) ++ behind as

/-- What giving up diagnostics issues that have been printed before.  Only one without a severity has kept what was attached to it. -/
def leftovers : List (Diagnostic × Bool) → List Report
  | []                        => []
  | (mk .none _ _ bs, _) :: as => givingUpAll bs ++ leftovers as
  | (mk _ _ _ _, _) :: as      => leftovers as

/-- What giving up a diagnostic issues. -/
def givingUp : Diagnostic → List Report
  | mk .none _ _ as => givingUpAll as
  | mk s e t as     => ahead as ++ ⟨s, e, t⟩ :: behind as ++ leftovers as

/-- What giving up diagnostics, one after the other, issues. -/
def givingUpAll : List (Diagnostic × Bool) → List Report
  | []           => []
  | (d, _) :: as => givingUp d ++ givingUpAll as

end

/-! ### Operations -/

/-- What is issued, and what the diagnostic is afterwards. -/
structure Outcome where
  issued : List Report
  left : Diagnostic

/-- Issues the diagnostic, if it has a severity. -/
def print (d : Diagnostic) : Outcome :=
  match d with
  | mk .none e t as => ⟨[], mk .none e t as⟩
  | mk s e t as     => ⟨printing (mk s e t as), mk .none e t []⟩

/-- Issues the attached ones. -/
def printAttached (d : Diagnostic) : Outcome :=
  ⟨ahead d.attached ++ behind d.attached ++ leftovers d.attached,
    mk d.severity d.error d.text []⟩

/-- Takes the severity away, and first issues the attached ones if that is wanted. -/
def suppress (issueAttached : Bool) (d : Diagnostic) : Outcome :=
  let o := if issueAttached then d.printAttached else ⟨[], d⟩
  ⟨o.issued, mk .none o.left.error o.left.text o.left.attached⟩

/-- Attaches another diagnostic. -/
def attach (d other : Diagnostic) (before : Bool) : Diagnostic :=
  mk d.severity d.error d.text (d.attached ++ [(other, before)])

/-- What is left where a diagnostic has been moved from. -/
def moved (d : Diagnostic) : Diagnostic := mk .none d.error [] []

/-- Overwrites a diagnostic.  It is not issued any more, but what was attached to it is given up. -/
def overwrite (d other : Diagnostic) : Outcome := ⟨givingUpAll d.attached, other⟩

end Diagnostic

end CilCatalog
