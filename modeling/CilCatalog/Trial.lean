import CilCatalog.Proofs.FullComparison
import CilCatalog.Proofs.Outcome
import CilCatalog.Warned

/-!
# Trials

A trial is a worked example that notes what it expects of the library and what it finds.  Three kinds of notes are taken: conditions, outcomes that should be values, and outcomes that should be errors of a certain kind.  A trial goes on when an expectation is not met, unless what is left to do makes no sense then.  A suite is a list of named trials.  Running it gives the notes of all of them, and a text with a line for each trial and one for the sum.

What a trial is worth is said by `Decides`: a trial decides a proposition if it comes to an end, breaks no contract on its way, and has every expectation met exactly if the proposition holds.  Each way to expect something decides what it is meant to, so a trial made of them decides the conjunction; comparing two catalogs decides whether they are equal; and the program that runs a suite exits with zero exactly if every proposition that its trials decide is true.
-/

namespace CilCatalog

/-- An entry in the notes of a trial. -/
inductive TrialEntry where
  /-- A condition, and the text that tells what is wrong unless it holds. -/
  | check (holds : Bool) (text : Bytes)
  /-- An outcome that should be a value; the error in its place, if it is none. -/
  | value (error : Option (ErrorKind × Bytes))
  /-- An outcome that should be an error and is one, and the kind it should be of. -/
  | error (kind : ErrorKind) (message : Bytes) (expected : ErrorKind)
deriving DecidableEq, Repr

/-- Whether the entry is as expected.  That an error is of the expected kind is an entry of its own. -/
@[simp] def TrialEntry.holds : TrialEntry → Bool
  | .check holds _ => holds
  | .value e       => e.isNone
  | .error ..      => true

/-- The notes of a trial. -/
structure TrialNotes where
  entries : List TrialEntry
  warnings : List Warning

namespace TrialNotes

def empty : TrialNotes := ⟨[], []⟩

/-- Whether every expectation is met. -/
def passed (n : TrialNotes) : Bool := n.entries.all (·.holds)

instance : Append TrialNotes where
  append n n' := ⟨n.entries ++ n'.entries, n.warnings ++ n'.warnings⟩

theorem append_def (n n' : TrialNotes) :
    n ++ n' = ⟨n.entries ++ n'.entries, n.warnings ++ n'.warnings⟩ := rfl

@[simp] theorem append_empty (n : TrialNotes) : n ++ empty = n := by simp [append_def, empty]

@[simp] theorem empty_append (n : TrialNotes) : empty ++ n = n := by simp [append_def, empty]

theorem append_assoc (n n' n'' : TrialNotes) : n ++ n' ++ n'' = n ++ (n' ++ n'') := by
  simp [append_def, List.append_assoc]

@[simp] theorem passed_append (n n' : TrialNotes) :
    (n ++ n').passed = (n.passed && n'.passed) := List.all_append

@[simp] theorem passed_nil (ws : List Warning) : (⟨[], ws⟩ : TrialNotes).passed = true := rfl

@[simp] theorem passed_cons (e : TrialEntry) (es : List TrialEntry) (ws : List Warning) :
    (⟨e :: es, ws⟩ : TrialNotes).passed = (e.holds && passed ⟨es, ws⟩) := List.all_cons

@[simp] theorem passed_empty : empty.passed = true := rfl

end TrialNotes

/-- A computation that takes notes.  It stops for good where a contract is broken, with the message of the breach if there is one. -/
abbrev Trial := ExceptT (Option Bytes) (StateM TrialNotes)

/-- The outcome of something that was tried: a value, or an error with its kind and message. -/
abbrev TrialOutcome (α : Type) := Except (ErrorKind × Bytes) α

/-- Kinds of computation that can be tried. -/
class Tries (m : Type → Type) where
  outcome {α : Type} : m α → Trial (TrialOutcome α)

namespace Trial

/-! ### Outcomes -/

def ofFault {φ α : Type} [Fault φ] (x : Except φ α) : TrialOutcome α :=
  x.mapError fun f => (Fault.kind f, Fault.message f)

def ofFailure {φ α : Type} [Fault φ] : Except (Failure φ) α → Trial (TrialOutcome α)
  | .ok a                => pure (.ok a)
  | .error (.fault f)    => pure (ofFault (.error f))
  | .error (.internal m) => throw m

/-- Notes warnings. -/
def warn (ws : List Warning) : Trial Unit :=
  modify fun n => { n with warnings := n.warnings ++ ws }

instance {φ : Type} [Fault φ] : Tries (Except φ) where
  outcome x := pure (ofFault x)

instance {φ : Type} [Fault φ] : Tries (Except (Failure φ)) where
  outcome := ofFailure

instance {φ : Type} [Fault φ] : Tries (Warned φ) where
  outcome x := do
    warn x.warnings
    return ofFault x.result

instance {φ : Type} [Fault φ] : Tries (Warned (Failure φ)) where
  outcome x := do
    warn x.warnings
    ofFailure x.result

/-- A value that there must be. -/
def certain {α : Type} (x : Except (Failure Empty) α) : Trial α :=
  match x with
  | .ok a                => pure a
  | .error (.internal m) => throw m

/-- A value that there must be. -/
def present {α : Type} (x : Option α) : Trial α := x.elim (throw none) pure

/-! ### Notes -/

def note (e : TrialEntry) : Trial Unit :=
  modify fun n => { n with entries := n.entries ++ [e] }

/-- Expects a condition to hold, and tells whether it does. -/
def check (holds : Bool) (text : Bytes) : Trial Bool := do
  note (.check holds text)
  return holds

/-- Expects a condition to hold. -/
def expect (holds : Bool) (text : Bytes) : Trial Unit := note (.check holds text)

/-- Expects a value. -/
def value {m : Type → Type} [Tries m] {α : Type} (x : m α) : Trial (Option α) := do
  match ← Tries.outcome x with
  | .ok a    =>
      note (.value none)
      return some a
  | .error e =>
      note (.value (some e))
      return none

/-- Expects an error of a certain kind. -/
def refused {m : Type → Type} [Tries m] {α : Type} (x : m α) (expected : ErrorKind) :
    Trial Unit := do
  let due := utf8 "expected a " ++ utf8 expected.name ++ utf8 " error, got "
  match ← Tries.outcome x with
  | .ok _            => expect false (due ++ "a value")
  | .error (kind, m) =>
      note (.error kind m expected)
      expect (kind == expected) (due ++ kind.name)

/-- Expects errors of a certain kind, one for each element of a list. -/
def refusedAll {m : Type → Type} [Tries m] {ι α : Type} (x : ι → m α) (is : List ι)
    (expected : ErrorKind) : Trial Unit :=
  is.forM fun i => refused (x i) expected

/-! ### Comparing catalogs -/

section

variable {ι δ : Type} [Named ι]

/-- Expects the entries of two maps to be the same, one pair after the other. -/
def sameEntries (part : Bytes) (eq : Entity ι δ → Entity ι δ → Bool) :
    List (Token × Entity ι δ) → List (Token × Entity ι δ) → Trial Unit
  | (t, a) :: as, (u, b) :: bs => do
      if ← check (t == u) (part ++ ": token " ++ t.text ++ " vs " ++ u.text) then
        expect (eq a b) (part ++ ": '" ++ a.name ++ "' differs")
      sameEntries part eq as bs
  | _, _ => pure ()

/-- Expects two maps to have the same number of entries, and if so the same entries. -/
def sameMap {n₁ n₂ : Bool} (part : Bytes) (eq : Entity ι δ → Entity ι δ → Bool)
    (m₁ : TokenMap n₁ (Entity ι δ)) (m₂ : TokenMap n₂ (Entity ι δ)) : Trial Unit := do
  if ← check (m₁.size == m₂.size)
      (part ++ ": " ++ Bytes.decimal m₁.size ++ " entities vs " ++ Bytes.decimal m₂.size) then
    sameEntries part eq m₁.entries m₂.entries

end

/-- Expects two catalogs to be the same, entity by entity. -/
def sameCatalog (a b : Catalog) : Trial Unit := do
  expect (a.options == b.options) "options differ"
  sameMap "types" Comparison.full.types a.types b.types
  sameMap "fields" Comparison.full.fields a.fields b.fields
  sameMap "methods" Comparison.full.methods a.methods b.methods

variable {α β : Type}

/-! ### What trials decide -/

/-- The trial comes to an end with `a`, and adds `n` to the notes, whatever they are. -/
def Adds (m : Trial α) (a : α) (n : TrialNotes) : Prop :=
  ∀ before, StateT.run (ExceptT.run m) before = (.ok a, before ++ n)

/-- The trial comes to an end, and every expectation is met if and only if `p` holds. -/
def Decides (m : Trial Unit) (p : Prop) : Prop := ∃ n, Adds m () n ∧ (n.passed = true ↔ p)

theorem adds_pure (a : α) : Adds (pure a) a .empty := fun n => by
  rw [TrialNotes.append_empty]
  rfl

theorem Adds.bind {m : Trial α} {a : α} {n : TrialNotes} {f : α → Trial β} {b : β}
    {n' : TrialNotes} (h : Adds m a n) (k : Adds (f a) b n') : Adds (m >>= f) b (n ++ n') := by
  intro before
  rw [← TrialNotes.append_assoc, ← k (before ++ n), ExceptT.run_bind, StateT.run_bind, h before]
  rfl

/-- A last step that leaves no notes. -/
theorem Adds.ends {m : Trial α} {a : α} {n : TrialNotes} {f : α → Trial β} {b : β}
    (h : Adds m a n) (k : Adds (f a) b .empty) : Adds (m >>= f) b n := by
  simpa using h.bind k

theorem adds_note (e : TrialEntry) : Adds (note e) () ⟨[e], []⟩ := fun n => by
  rw [TrialNotes.append_def, List.append_nil]
  rfl

theorem adds_warn (ws : List Warning) : Adds (warn ws) () ⟨[], ws⟩ := fun n => by
  rw [TrialNotes.append_def, List.append_nil]
  rfl

theorem adds_check (holds : Bool) (text : Bytes) :
    Adds (check holds text) holds ⟨[.check holds text], []⟩ :=
  (adds_note (.check holds text)).ends (adds_pure holds)

theorem Decides.congr {m : Trial Unit} {p q : Prop} (h : Decides m p) (hpq : p ↔ q) :
    Decides m q :=
  let ⟨n, hn, hp⟩ := h
  ⟨n, hn, hp.trans hpq⟩

theorem decides_pure : Decides (pure ()) True := ⟨_, adds_pure (), by decide⟩

/-- Notes that are taken before a trial goes on count with what is noted later. -/
theorem Adds.decides {m : Trial α} {a : α} {n : TrialNotes} {f : α → Trial Unit} {p q : Prop}
    (h : Adds m a n) (hp : n.passed = true ↔ p) (k : Decides (f a) q) :
    Decides (m >>= f) (p ∧ q) :=
  let ⟨n', hn', hq⟩ := k
  ⟨n ++ n', h.bind hn', by rw [TrialNotes.passed_append, Bool.and_eq_true, hp, hq]⟩

/-- Notes that are as expected leave the decision to what comes after them. -/
theorem Adds.next {m : Trial α} {a : α} {n : TrialNotes} {f : α → Trial Unit} {q : Prop}
    (h : Adds m a n) (hn : n.passed = true) (k : Decides (f a) q) : Decides (m >>= f) q :=
  (h.decides (iff_true_intro hn) k).congr (by simp)

theorem Decides.seq {m m' : Trial Unit} {p q : Prop} (h : Decides m p) (k : Decides m' q) :
    Decides (m >>= fun _ => m') (p ∧ q) :=
  let ⟨_, hn, hp⟩ := h
  hn.decides hp k

/-- One trial for each element of a list. -/
theorem Decides.forM {f : α → Trial Unit} {p : α → Prop} :
    ∀ {l : List α}, (∀ a ∈ l, Decides (f a) (p a)) → Decides (l.forM f) (∀ a ∈ l, p a)
  | [], _ => decides_pure.congr (by simp)
  | a :: l, h => by
      refine ((h a (by simp)).seq (Decides.forM fun b hb => h b (by simp [hb]))).congr ?_
      simp

/-! ### What each expectation decides -/

theorem decides_expect (holds : Bool) (text : Bytes) :
    Decides (expect holds text) (holds = true) :=
  ⟨_, adds_note _, by simp [TrialNotes.passed, TrialEntry.holds]⟩

/-- What depends on a condition is only tried where the condition holds. -/
theorem decides_check {holds : Bool} {text : Bytes} {f : Bool → Trial Unit} {p q : Prop}
    (ht : holds = true → Decides (f true) p) (hf : holds = false → Decides (f false) q) :
    Decides (check holds text >>= f) (holds = true ∧ p) := by
  have hn : (⟨[.check holds text], []⟩ : TrialNotes).passed = true ↔ holds = true := by
    simp [TrialNotes.passed, TrialEntry.holds]
  cases holds with
  | true => exact (adds_check true text).decides hn (ht rfl)
  | false => exact ((adds_check false text).decides hn (hf rfl)).congr (by simp)

section

variable {φ : Type} [Fault φ]

@[simp] theorem ofFault_eq_ok {x : Except φ α} {a : α} : ofFault x = .ok a ↔ x = .ok a :=
  mapError_eq_ok

@[simp] theorem ofFault_eq_error {x : Except φ α} {k : ErrorKind} {text : Bytes} :
    ofFault x = .error (k, text) ↔
      ∃ f, x = .error f ∧ Fault.kind f = k ∧ Fault.message f = text := by
  cases x with
  | ok a => exact ⟨nofun, nofun⟩
  | error f =>
      have hf : ofFault (.error f : Except φ α) = .error (Fault.kind f, Fault.message f) := rfl
      simp [hf]

/-- What is tried comes to an outcome, for which it leaves nothing but warnings in the notes. -/
def Comes {m : Type → Type} [Tries m] (x : m α) (o : TrialOutcome α) : Prop :=
  ∃ ws, Adds (Tries.outcome x) o ⟨[], ws⟩

theorem comes_except (x : Except φ α) : Comes x (ofFault x) := ⟨[], adds_pure _⟩

theorem adds_ofFailure {x : Except (Failure φ) α} {y : Except φ α} (h : x = y.mapError .fault) :
    Adds (ofFailure x) (ofFault y) .empty := by
  subst h
  cases y <;> exact adds_pure _

theorem comes_failure {x : Except (Failure φ) α} {y : Except φ α} (h : x = y.mapError .fault) :
    Comes x (ofFault y) := ⟨[], adds_ofFailure h⟩

theorem comes_warned (x : Warned φ α) : Comes x (ofFault x.result) :=
  ⟨x.warnings, (adds_warn x.warnings).ends (adds_pure (ofFault x.result))⟩

theorem comes_warned_failure {x : Warned (Failure φ) α} {y : Except φ α}
    (h : x.result = y.mapError .fault) : Comes x (ofFault y) :=
  ⟨x.warnings, (adds_warn x.warnings).ends (adds_ofFailure h)⟩

end

section

variable {m : Type → Type} [Tries m] {x : m α}

/-- What depends on a value is only tried where there is one. -/
theorem decides_value {o : TrialOutcome α} {f : Option α → Trial Unit} {p : α → Prop} {q : Prop}
    (h : Comes x o) (hok : ∀ a, o = .ok a → Decides (f (some a)) (p a)) (hno : Decides (f none) q) :
    Decides (value x >>= f) (∃ a, o = .ok a ∧ p a) := by
  obtain ⟨ws, h⟩ := h
  cases o with
  | ok a =>
      have hv : Adds (value x) (some a) (⟨[], ws⟩ ++ ⟨[.value none], []⟩) :=
        h.bind ((adds_note _).ends (adds_pure _))
      exact (hv.next (by simp) (hok a rfl)).congr (by simp)
  | error e =>
      have hv : Adds (value x) none (⟨[], ws⟩ ++ ⟨[.value (some e)], []⟩) :=
        h.bind ((adds_note _).ends (adds_pure _))
      exact (hv.decides (p := False) (by simp) hno).congr (by simp)

/-- An expected error is met by errors of its kind only, whatever they say. -/
theorem decides_refused {o : TrialOutcome α} (h : Comes x o) (k : ErrorKind) :
    Decides (refused x k) (∃ text, o = .error (k, text)) := by
  obtain ⟨ws, h⟩ := h
  refine h.next rfl ?_
  cases o with
  | ok a => exact (decides_expect _ _).congr (by simp)
  | error e => exact ((adds_note _).next rfl (decides_expect _ _)).congr (by simp [Prod.ext_iff])

theorem decides_refusedAll {ι : Type} {is : List ι} {y : ι → m α} {k : ErrorKind} {p : ι → Prop}
    (h : ∀ i ∈ is, Decides (refused (y i) k) (p i)) :
    Decides (refusedAll y is k) (∀ i ∈ is, p i) := .forM h

end

/-! ### What a comparison of catalogs decides -/

section

variable {ι δ : Type} [Named ι] {eq : Entity ι δ → Entity ι δ → Bool}

theorem decides_sameEntries (part : Bytes) (h : ∀ e f, eq e f = true ↔ e = f) :
    ∀ as bs : List (Token × Entity ι δ), as.length = bs.length →
      Decides (sameEntries part eq as bs) (as = bs)
  | [], [], _ => decides_pure.congr (by simp)
  | (t, a) :: as, (u, b) :: bs, hl => by
      have ih := decides_sameEntries part h as bs (by simpa using hl)
      refine (decides_check (fun _ => (decides_expect _ _).seq ih) fun _ => ih).congr ?_
      simp [h, and_assoc]

theorem decides_sameMap (part : Bytes) (h : ∀ e f, eq e f = true ↔ e = f) {n k : Bool}
    (m : TokenMap n (Entity ι δ)) (m' : TokenMap k (Entity ι δ)) :
    Decides (sameMap part eq m m') (m.entries = m'.entries) := by
  refine (decides_check (fun hs => decides_sameEntries part h _ _ (by simpa [TokenMap.size] using hs))
    fun _ => decides_pure).congr ?_
  simpa [TokenMap.size] using fun hs => congrArg List.length hs

end

/-- Comparing two catalogs entity by entity decides whether they are one and the same. -/
theorem decides_sameCatalog (a b : Catalog) : Decides (sameCatalog a b) (a = b) := by
  have types := decides_sameMap "types" (fun _ _ =>
    Comparison.full_entity (fun _ _ => Comparison.full_typeIdentity)
      fun _ _ => Comparison.full_typeData) a.types b.types
  have fields := decides_sameMap "fields" (fun _ _ =>
    Comparison.full_entity (fun _ _ => Comparison.full.memberIdentity_eq_true)
      fun _ _ => Comparison.full_fieldData) a.fields b.fields
  have methods := decides_sameMap "methods" (fun _ _ =>
    Comparison.full_entity (fun _ _ => Comparison.full.memberIdentity_eq_true)
      fun _ _ => Comparison.full_methodData) a.methods b.methods
  refine ((decides_expect _ _).seq (types.seq (fields.seq methods))).congr ⟨?_, ?_⟩
  · obtain ⟨o, ⟨ts, _⟩, ⟨fs, _⟩, ⟨ms, _⟩⟩ := a
    obtain ⟨o', ⟨ts', _⟩, ⟨fs', _⟩, ⟨ms', _⟩⟩ := b
    simp only [beq_iff_eq, and_imp]
    rintro rfl rfl rfl rfl
    rfl
  · rintro rfl
    simp

end Trial

/-! ### Suites -/

/-- A trial with its name. -/
structure TrialCase where
  name : String
  run : Trial Unit

/-- Trials in the order they are run. -/
abbrev TrialSuite := List TrialCase

/-- What running a suite gives. -/
structure TrialReport where
  notes : TrialNotes
  text : Bytes
  /-- How many trials were run, and how many of them passed. -/
  run : Nat
  passed : Nat

namespace TrialReport

def empty : TrialReport := ⟨.empty, [], 0, 0⟩

def failed (r : TrialReport) : Nat := r.run - r.passed

/-- The exit code of a program that runs the suite. -/
def exitCode (r : TrialReport) : Nat := if r.failed = 0 then 0 else 1

/-! #### Text -/

/-- A text for a terminal that shows it in green if all is well, and in red otherwise. -/
def coloured (good : Bool) (text : Bytes) : Bytes :=
  0x1B :: (if good then utf8 "[32m" else utf8 "[31m") ++ text ++ 0x1B :: utf8 "[m"

/-- What is said of an entry in the notes of the trial `name`. -/
def complaint (name : String) : TrialEntry → Bytes
  | .check false text => "\nMISMATCH in " ++ utf8 name ++ ": " ++ text ++ "\n"
  | .value (some _)   => "\nUNEXPECTED ERROR in " ++ utf8 name ++ ":\n"
  | _                 => []

/-- The line for a trial. -/
def caseLine (name : String) (passed : Bool) : Bytes :=
  let (mark, outcome) : Bytes × Bytes :=
    if passed then (utf8 "O", utf8 "PASSED") else (utf8 "X", utf8 "FAILED")
  utf8 "  " ++ coloured passed mark ++ utf8 " " ++ utf8 name ++ utf8 ": " ++ outcome ++ [0x0A]

/-- The lines for the sum. -/
def summary (r : TrialReport) : Bytes :=
  let passed := utf8 "PASSED:  " ++ Bytes.decimal r.passed ++ "/" ++ Bytes.decimal r.run
  let failed := utf8 "FAILED:  " ++ Bytes.decimal r.failed
  utf8 "  " ++ coloured true passed ++ [0x0A] ++
    (if r.failed = 0 then [] else utf8 "  " ++ coloured false failed ++ [0x0A])

/-! #### Running -/

/-- With the notes of one more trial. -/
def add (r : TrialReport) (name : String) (n : TrialNotes) : TrialReport where
  notes := r.notes ++ n
  text := r.text ++ n.entries.flatMap (complaint name) ++ caseLine name n.passed
  run := r.run + 1
  passed := if n.passed then r.passed + 1 else r.passed

end TrialReport

namespace TrialSuite

/-- The trials with a given name, or all of them. -/
def select (only : Option Bytes) (s : TrialSuite) : TrialSuite :=
  match only with
  | none      => s
  | some name => s.filter fun c => utf8 c.name == name

/-- Runs trials one after the other, each with notes of its own. -/
def runFrom (r : TrialReport) : TrialSuite → Except (Option Bytes) TrialReport
  | []     => .ok r
  | c :: s =>
      match StateT.run (ExceptT.run c.run) TrialNotes.empty with
      | (.ok (), n)   => runFrom (r.add c.name n) s
      | (.error m, _) => .error m

/-- Runs a suite and adds the sum to the text. -/
def run (s : TrialSuite) : Except (Option Bytes) TrialReport :=
  (runFrom .empty s).map fun r => { r with text := r.text ++ r.summary }

/-! #### What a run comes to -/

variable {s : TrialSuite} {r : TrialReport} {p : TrialCase → Prop} [DecidablePred p]

/-- Running on counts every trial, and those whose propositions hold among the passed ones. -/
theorem runFrom_of_decides (h : ∀ c ∈ s, Trial.Decides c.run (p c)) (r : TrialReport) :
    ∃ r', runFrom r s = .ok r' ∧ r'.run = r.run + s.length ∧ r'.passed = r.passed + s.countP p := by
  induction s generalizing r with
  | nil => exact ⟨r, rfl, rfl, rfl⟩
  | cons c s ih =>
      obtain ⟨n, hn, hp⟩ := h c (by simp)
      have hc : StateT.run (ExceptT.run c.run) TrialNotes.empty = (.ok (), n) := by
        simpa using hn .empty
      obtain ⟨r', hr', hrun, hpassed⟩ := ih (fun d hd => h d (by simp [hd])) (r.add c.name n)
      refine ⟨r', ?_, ?_, ?_⟩
      · rw [runFrom, hc]
        exact hr'
      · rw [hrun, List.length_cons, Nat.add_comm s.length 1, ← Nat.add_assoc]
        rfl
      · have hadd : (r.add c.name n).passed = if p c then r.passed + 1 else r.passed := by
          simp only [TrialReport.add, hp]
        rw [hpassed, hadd, List.countP_cons]
        by_cases hpc : p c <;> simp [hpc, Nat.add_assoc, Nat.add_comm]

/-- A suite of trials that decide propositions runs to its end, and counts the propositions that hold; the program that runs it exits with zero exactly if all of them do. -/
theorem run_of_decides (h : ∀ c ∈ s, Trial.Decides c.run (p c)) :
    ∃ r, s.run = .ok r ∧ r.run = s.length ∧ r.passed = s.countP p ∧
      (r.exitCode = 0 ↔ ∀ c ∈ s, p c) := by
  obtain ⟨r, hr, hrun, hpassed⟩ := runFrom_of_decides h .empty
  simp only [TrialReport.empty, Nat.zero_add] at hrun hpassed
  refine ⟨{ r with text := r.text ++ r.summary }, by rw [run, hr]; rfl, hrun, hpassed, ?_⟩
  have hle : s.countP p ≤ s.length := List.countP_le_length
  have hall : s.countP p = s.length ↔ ∀ c ∈ s, p c := by simp [List.countP_eq_length]
  rw [← hall]
  simp only [TrialReport.exitCode, TrialReport.failed, hrun, hpassed]
  split <;> omega

end TrialSuite

end CilCatalog
