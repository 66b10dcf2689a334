import CilCatalog.Proofs.Dictionary
import CilCatalog.Proofs.Journal

/-!
# Requests served in memory

`Registrar.after` forgets what a refused request has done.  In memory nothing is forgotten: a request is served by steps that write to the ledger and to the map one after the other, and a step that fails leaves what the steps before it have written.  Here the steps are in the order of the program, on a ledger and on the memory of a map (`Slots`), and every request has the same answer there as from the registrar, with no trace of those that are refused.

* `Tables`: the ledger and the memory of one kind of entity, and `Tables.register`, which serves a request on them.
* `Tables.InStep.register`: one request; `Office.InStep.serve` is the same for all kinds of entity.
* `requests_in_memory`: any requests, one after the other.
-/

namespace CilCatalog

/-! ### One kind of entity -/

/-- The registrations of one kind of entity, and the memory of their map. -/
structure Tables (named : Bool) (ι δ : Type) where
  ledger : Ledger ι
  slots : Slots named (Entity ι δ)

/-- Steps that write to tables. -/
abbrev Serving (named : Bool) (ι δ : Type) := ExceptT RegistryFault (StateM (Tables named ι δ))

namespace Tables

variable {named : Bool} {ι δ : Type} [Identity ι]

/-- A call to the map. -/
def call (f : Slots named (Entity ι δ) → Except TokenMapFault Unit × Slots named (Entity ι δ)) :
    Serving named ι δ Unit := fun b =>
  match f b.slots with
  | (.ok (), s)   => (.ok (), { b with slots := s })
  | (.error f, s) => (.error (.store f), { b with slots := s })

def record (id : ι) (r : Registration) : Serving named ι δ Unit := fun b =>
  (.ok (), { b with ledger := b.ledger.record id r })

/-- The token for a new entity, which is looked for and not yet used. -/
def newToken (fresh : (Token → Bool) → ι → Except RegistryFault Token) (id : ι) :
    Serving named ι δ Token := fun b =>
  (if named then fresh b.slots.contains id else .ok (.index (Int32.ofNat b.slots.entries.length)), b)

/-- Serves a request, step by step. -/
def register (fresh : (Token → Bool) → ι → Except RegistryFault Token) (e : Entity ι δ)
    (level : Level) : Serving named ι δ Registered := do
  if level ≠ .reference ∧ ¬ e.isDefinition then
    throw (.referenceAt e.name level)
  else
    match (← get).ledger.find? e.identity with
    | some r =>
        if r.level < level then
          call (·.set r.token e)
          record e.identity ⟨r.token, level⟩
          return ⟨r.token, r.level⟩
        else
          return ⟨r.token, r.level⟩
    | none =>
        let t ← newToken fresh e.identity
        call (·.add t e)
        record e.identity ⟨t, level⟩
        return ⟨t, level⟩

/-- The tables hold a ledger and a map. -/
structure InStep (b : Tables named ι δ) (l : Ledger ι) (m : TokenMap named (Entity ι δ)) : Prop where
  ledger : b.ledger = l
  slots : b.slots.InStep m

/-- The same answer from the tables as from what they hold.  After a failure they are what they were. -/
def Matches (b : Tables named ι δ) (out : Except RegistryFault Registered × Tables named ι δ) :
    Except RegistryFault (Registered × Ledger ι × TokenMap named (Entity ι δ)) → Prop
  | .ok (u, l, m) => out.1 = .ok u ∧ out.2.InStep l m
  | .error f      => out = (.error f, b)

namespace InStep

variable {b : Tables named ι δ} {l : Ledger ι} {m : TokenMap named (Entity ι δ)} {e : Entity ι δ}
  {fresh : (Token → Bool) → ι → Except RegistryFault Token}

omit [Identity ι] in
theorem newToken (h : b.InStep l m) (id : ι) :
    Tables.newToken fresh id b = (Registry.newToken fresh m id, b) := by
  have contains : b.slots.contains = m.contains := funext h.slots.contains
  rw [Tables.newToken, Registry.newToken, contains, h.slots.entries]
  rfl

/-- The map is written before the ledger, so that nothing is written if the map refuses. -/
theorem stored {c : Except TokenMapFault (TokenMap named (Entity ι δ))}
    {f : Slots named (Entity ι δ) → Except TokenMapFault Unit × Slots named (Entity ι δ)}
    (h : b.InStep l m) (id : ι) (r : Registration) (u : Registered) :
    b.slots.Matches (f b.slots) c →
    b.Matches ((do call f; record id r; return u : Serving named ι δ Registered) b)
      (match c with
        | .ok m'   => .ok (u, l.record id r, m')
        | .error e => .error (.store e)) := by
  intro matched
  cases c with
  | ok m' =>
      obtain ⟨ok, slots⟩ := matched
      have called : call f b = (.ok (), { b with slots := (f b.slots).2 }) := by
        rw [call, show f b.slots = (.ok (), (f b.slots).2) from Prod.ext ok rfl]
      rw [run_bind_ok called]
      exact ⟨rfl, congrArg (Ledger.record · id r) h.ledger, slots⟩
  | error e =>
      have called : call f b = (.error (.store e), b) := by
        rw [call, show f b.slots = _ from matched]
      rw [run_bind_error called]
      rfl

/-- A request is answered from the tables as by the registry, and keeps the two in step. -/
theorem register (h : b.InStep l m) (e : Entity ι δ) (level : Level) :
    b.Matches (Tables.register fresh e level b) (Registry.registerIn fresh l m e level) := by
  rw [Tables.register, Registry.registerIn]
  by_cases undefined : level ≠ .reference ∧ ¬ e.isDefinition
  · rw [if_pos undefined, if_pos undefined]
    rfl
  have got : (get : Serving named ι δ _) b = (.ok b, b) := rfl
  rw [if_neg undefined, if_neg undefined, run_bind_ok got, h.ledger]
  -- a known entity is stored anew if its level rises; a new one gets a token first
  cases l.find? e.identity with
  | some r =>
      dsimp only
      by_cases raised : r.level < level
      · rw [if_pos raised, if_pos raised]
        exact h.stored (f := (·.set r.token e)) _ _ _ (h.slots.set r.token e)
      · rw [if_neg raised, if_neg raised]
        exact ⟨rfl, h⟩
  | none =>
      dsimp only
      have looked : Tables.newToken fresh e.identity b = _ := h.newToken e.identity
      cases made : Registry.newToken fresh m e.identity with
      | error f =>
          rw [made] at looked
          rw [run_bind_error looked]
          rfl
      | ok t =>
          rw [made] at looked
          rw [run_bind_ok looked]
          exact h.stored (f := (·.add t e)) _ _ _ (h.slots.add t e)

end InStep

end Tables

/-! ### All kinds of entity -/

/-- The tables of all kinds, under the options of a catalog. -/
structure Office where
  options : Options
  types : Tables options.namedTokens TypeIdentity TypeData
  fields : Tables options.namedTokens MemberIdentity FieldData
  methods : Tables options.namedTokens MemberIdentity MethodData

namespace Office

def start (o : Options) : Office := ⟨o, ⟨[], .empty⟩, ⟨[], .empty⟩, ⟨[], .empty⟩⟩

/-- The answer to a request, and the tables behind it. -/
def serve (s : Office) : Request → Except RegistryFault Registered × Office
  | .type e level =>
      let (u, b) := Tables.register (fun taken id => Registry.freshName taken id.name) e level s.types
      (u, { s with types := b })
  | .field e level =>
      if level = .withChildren then (.error (.childless "Fields"), s)
      else
        let (u, b) := Tables.register Registry.freshMemberName e level s.fields
        (u, { s with fields := b })
  | .method e level =>
      if level = .withChildren then (.error (.childless "Methods"), s)
      else
        let (u, b) := Tables.register Registry.freshMemberName e level s.methods
        (u, { s with methods := b })

/-- The tables after several requests. -/
def afterAll (s : Office) (qs : List Request) : Office := qs.foldl (fun s q => (s.serve q).2) s

/-- An office holds what a registrar has. -/
inductive InStep : Office → Registrar → Prop
  | intro {o : Options} {types : Tables o.namedTokens TypeIdentity TypeData}
      {fields : Tables o.namedTokens MemberIdentity FieldData}
      {methods : Tables o.namedTokens MemberIdentity MethodData} {g : Registry}
      {mt : TokenMap o.namedTokens TypeEntity} {mf : TokenMap o.namedTokens FieldEntity}
      {mm : TokenMap o.namedTokens MethodEntity} (ht : types.InStep g.types mt)
      (hf : fields.InStep g.fields mf) (hm : methods.InStep g.methods mm) :
      InStep ⟨o, types, fields, methods⟩ ⟨g, ⟨o, mt, mf, mm⟩⟩

/-- The same answer from the office as from a registrar.  After a failure the office is what it was. -/
def Matches (s : Office) (out : Except RegistryFault Registered × Office) :
    Except RegistryFault (Registered × Registrar) → Prop
  | .ok (u, r) => out.1 = .ok u ∧ out.2.InStep r
  | .error f   => out = (.error f, s)

/-- What holds of the tables of one kind holds of the office that they are put into. -/
theorem matches_of_tables {s : Office} {named : Bool} {ι δ : Type} [Identity ι]
    {b : Tables named ι δ} {out : Except RegistryFault Registered × Tables named ι δ}
    {answer : Except RegistryFault (Registered × Ledger ι × TokenMap named (Entity ι δ))}
    {answer' : Except RegistryFault (Registered × Registrar)} (put : Tables named ι δ → Office)
    (make : Ledger ι → TokenMap named (Entity ι δ) → Registrar) (matched : b.Matches out answer)
    (same : put b = s) (step : ∀ b' l m, b'.InStep l m → (put b').InStep (make l m))
    (made : answer' = answer.map fun p => (p.1, make p.2.1 p.2.2)) :
    s.Matches (out.1, put out.2) answer' := by
  subst made
  cases answer with
  | ok p => exact ⟨matched.1, step _ _ _ matched.2⟩
  | error f =>
      rw [show out = (.error f, b) from matched, same]
      rfl

namespace InStep

variable {s : Office} {r : Registrar}

theorem start (o : Options) : (Office.start o).InStep (.start o) :=
  .intro ⟨rfl, .empty⟩ ⟨rfl, .empty⟩ ⟨rfl, .empty⟩

/-- A request is answered in the office as by the registrar, and keeps the two in step. -/
theorem serve (h : s.InStep r) (q : Request) : s.Matches (s.serve q) (r.serve q) := by
  obtain @⟨o, types, fields, methods, g, mt, mf, mm, ht, hf, hm⟩ := h
  -- a registration changes one of the three tables, and the other two stay in step
  cases q with
  | type e level =>
      refine matches_of_tables (⟨o, ·, fields, methods⟩)
        (fun l m => ⟨{ g with types := l }, ⟨o, m, mf, mm⟩⟩) (ht.register e level) rfl
        (fun _ _ _ ht' => .intro ht' hf hm) ?_
      rw [Registrar.serve, Registry.registerType]
      generalize Registry.registerIn _ _ _ e level = answer
      cases answer <;> rfl
  | field e level =>
      rw [Registrar.serve, Registry.registerField, Office.serve]
      by_cases childless : level = .withChildren
      · rw [if_pos childless, if_pos childless]
        rfl
      · rw [if_neg childless, if_neg childless]
        refine matches_of_tables (⟨o, types, ·, methods⟩)
          (fun l m => ⟨{ g with fields := l }, ⟨o, mt, m, mm⟩⟩) (hf.register e level) rfl
          (fun _ _ _ hf' => .intro ht hf' hm) ?_
        generalize Registry.registerIn _ _ _ e level = answer
        cases answer <;> rfl
  | method e level =>
      rw [Registrar.serve, Registry.registerMethod, Office.serve]
      by_cases childless : level = .withChildren
      · rw [if_pos childless, if_pos childless]
        rfl
      · rw [if_neg childless, if_neg childless]
        refine matches_of_tables (⟨o, types, fields, ·⟩)
          (fun l m => ⟨{ g with methods := l }, ⟨o, mt, mf, m⟩⟩) (hm.register e level) rfl
          (fun _ _ _ hm' => .intro ht hf hm') ?_
        generalize Registry.registerIn _ _ _ e level = answer
        cases answer <;> rfl

theorem after (h : s.InStep r) (q : Request) : (s.serve q).2.InStep (r.after q) := by
  have matched := h.serve q
  rw [Registrar.after]
  cases hq : r.serve q with
  | ok p =>
      rw [hq] at matched
      exact matched.2
  | error f =>
      rw [hq] at matched
      rw [show s.serve q = _ from matched]
      exact h

theorem afterAll (h : s.InStep r) (qs : List Request) : (s.afterAll qs).InStep (r.afterAll qs) := by
  induction qs generalizing s r with
  | nil => exact h
  | cons q qs ih => exact ih (h.after q)

end InStep

end Office

/-- After any requests an office holds what the registrar has.  Every further request has the same answer in both, and one that is refused leaves no trace in the office. -/
theorem requests_in_memory (o : Options) (qs : List Request) :
    let s := (Office.start o).afterAll qs
    let r := (Registrar.start o).afterAll qs
    s.InStep r ∧ ∀ q, s.Matches (s.serve q) (r.serve q) :=
  have inStep := (Office.InStep.start o).afterAll qs
  ⟨inStep, inStep.serve⟩

end CilCatalog
