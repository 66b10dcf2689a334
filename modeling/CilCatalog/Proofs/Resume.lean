import CilCatalog.Proofs.Fresh
import Mathlib.Data.List.Find

/-!
# Resuming from a catalog

A registrar can be given a catalog that another one has filled: its registry is then made of the entries alone.  It knows the same entities by the same tokens, since whatever has been replaced, the entries are of distinct identities (`Ledger.Tracks`).  What it does not know is the levels that were on record: an entity is on record as what is stored of it.

* `Ledger.find?_ofEntries`: what is on record in a registry that is made of entries.
* `Ledger.Tracks.registerIn`: every registration keeps ledger and token map in step.
* `Registrar.resume_agrees`: how the two registrars answer a request for a reference.
-/

namespace CilCatalog

/-- The level at which an entity is on record by what is stored of it. -/
def Entity.level {ι δ : Type} (e : Entity ι δ) : Level :=
  if e.isDefinition then .definition else .reference

section Entries

variable {named : Bool} {ι δ : Type} [Identity ι] {l l' : Ledger ι}
  {m m' : TokenMap named (Entity ι δ)} {e : Entity ι δ} {level : Level} {u : Registered} {id id' : ι}

/-- No two entries are of the same identity. -/
def Apart (es : List (Token × Entity ι δ)) : Prop :=
  es.Pairwise fun a b => Identity.same a.2.identity b.2.identity = false

/-- The first entry of an identity. -/
def entryFor (es : List (Token × Entity ι δ)) (id : ι) : Option (Token × Entity ι δ) :=
  es.find? fun e => Identity.same e.2.identity id

/-- An entry is an entry of the map, and of the identity. -/
theorem get?_of_entryFor {x : Token × Entity ι δ} (h : entryFor m.entries id = some x) :
    m.get? x.1 = some x.2 ∧ Identity.same x.2.identity id = true := by
  refine ⟨?_, by simpa using List.find?_some h⟩
  obtain ⟨as, bs, he⟩ := List.append_of_mem (List.mem_of_find?_eq_some h)
  refine List.lookup_eq_some_iff.2 ⟨as, bs, he, fun a ha => ?_⟩
  have nodup : m.keys.Nodup := nodup_of_wellKeyed m.wellKeyed
  rw [TokenMap.keys, he, List.map_append] at nodup
  have := (List.nodup_append.1 nodup).2.2 a.1 (List.mem_map_of_mem ha) x.1 List.mem_cons_self
  simpa using Ne.symm this

variable [LawfulIdentity ι]

theorem entryFor_congr (es : List (Token × Entity ι δ)) (h : Identity.same id id' = true) :
    entryFor es id = entryFor es id' := by
  rw [entryFor, entryFor]
  congr
  funext e
  exact same_congr_right h

/-- A ledger to which entries are put has those on record, and what it had before. -/
theorem Ledger.find?_foldl_record {es : List (Token × Entity ι δ)} (apart : Apart es)
    (l : Ledger ι) (id : ι) :
    (es.foldl (fun l e => l.record e.2.identity ⟨e.1, e.2.level⟩) l).find? id =
      ((entryFor es id).map fun e => ⟨e.1, e.2.level⟩).or (l.find? id) := by
  induction es generalizing l with
  | nil => rfl
  | cons e es ih =>
      obtain ⟨unlike, apart⟩ := List.pairwise_cons.1 apart
      rw [List.foldl_cons, ih apart, find?_record, entryFor, entryFor, List.find?_cons]
      cases he : Identity.same e.2.identity id with
      | false => rfl
      | true =>
          -- no later entry is of the identity, which is that of `e`
          have none : es.find? (fun e => Identity.same e.2.identity id) = none := by
            refine List.find?_eq_none.2 fun e' he' h' => ?_
            have := unlike e' he'
            rw [same_trans he (same_symm h')] at this
            cases this
          rw [none]
          rfl

/-- A ledger that is made of entries has those on record, at the levels that they are stored at. -/
theorem Ledger.find?_ofEntries {es : List (Token × Entity ι δ)} (apart : Apart es) (id : ι) :
    (ofEntries es).find? id = (entryFor es id).map fun e => ⟨e.1, e.2.level⟩ := by
  rw [ofEntries]
  exact (find?_foldl_record apart [] id).trans Option.or_none

/-! ### Ledgers in step with token maps -/

/-- The entries are of distinct identities, and these are the ones on record, with their tokens. -/
structure Ledger.Tracks (l : Ledger ι) (m : TokenMap named (Entity ι δ)) : Prop where
  apart : Apart m.entries
  token : ∀ id, (l.find? id).map Registration.token = (entryFor m.entries id).map Prod.fst

namespace Ledger.Tracks

omit [LawfulIdentity ι] in
theorem empty : Tracks ([] : Ledger ι) (.empty : TokenMap named (Entity ι δ)) := ⟨.nil, fun _ => rfl⟩

omit [LawfulIdentity ι] in
theorem find?_eq_none_iff (h : l.Tracks m) :
    l.find? id = none ↔ entryFor m.entries id = none := by
  rw [← Option.map_eq_none_iff, h.token id, Option.map_eq_none_iff]

omit [LawfulIdentity ι] in
/-- What is on record is stored under its token. -/
theorem entry (h : l.Tracks m) {r : Registration} (hr : l.find? id = some r) :
    ∃ e, entryFor m.entries id = some (r.token, e) := by
  have token := h.token id
  rw [hr] at token
  obtain ⟨⟨t, e⟩, he, rfl⟩ := Option.map_eq_some_iff.1 token.symm
  exact ⟨e, he⟩

omit [LawfulIdentity ι] in
theorem used (h : l.Tracks m) {r : Registration} (hr : l.find? id = some r) : r.token ∈ m.keys := by
  obtain ⟨e, he⟩ := h.entry hr
  exact List.mem_map_of_mem (List.mem_of_find?_eq_some he)

/-- The entity is on record at a lower level. -/
theorem raised (h : l.Tracks m) {r : Registration} (hr : l.find? e.identity = some r) :
    Tracks (l.record e.identity ⟨r.token, level⟩) (m.replace r.token e) := by
  obtain ⟨old, hold⟩ := h.entry hr
  let put (x : Token × Entity ι δ) := if x.1 = r.token then (x.1, e) else x
  -- what is replaced is of the same identity as what replaces it
  have put_same : ∀ x ∈ m.entries, ∀ id,
      Identity.same (put x).2.identity id = Identity.same x.2.identity id := by
    intro x hx id
    dsimp only [put]
    split
    · next ht =>
        have distinct := nodup_of_wellKeyed m.wellKeyed
        obtain rfl : x = (r.token, old) :=
          List.inj_on_of_nodup_map distinct hx (List.mem_of_find?_eq_some hold) ht
        exact (same_congr_left (get?_of_entryFor hold).2).symm
    · rfl
  have put_token : Prod.fst ∘ put = Prod.fst := by
    funext x
    dsimp only [put, Function.comp]
    split <;> rfl
  constructor
  · refine List.pairwise_map.2 (h.apart.imp_of_mem fun {x y} hx hy hxy => ?_)
    have : Identity.same x.2.identity (put y).2.identity = false := by
      rw [Bool.eq_false_iff, Ne] at hxy ⊢
      exact fun hs => hxy (same_symm ((put_same y hy _).symm.trans (same_symm hs)))
    exact (put_same x hx _).trans this
  · intro id
    have entries : (entryFor (m.replace r.token e).entries id).map Prod.fst =
        (entryFor m.entries id).map Prod.fst := by
      rw [TokenMap.replace, entryFor, List.find?_map, Option.map_map, entryFor]
      rw [show (Prod.fst ∘ fun x : Token × Entity ι δ => if x.1 = r.token then (x.1, e) else x) =
        Prod.fst from put_token]
      congr 1
      exact List.find?_congr fun x hx => put_same x hx id
    rw [entries, find?_record, ← h.token id]
    split
    · next hs => rw [← find?_congr hs, hr]; rfl
    · rfl

/-- The entity is new. -/
theorem new (h : l.Tracks m) {t : Token} (hn : l.find? e.identity = none) (ha : m.add t e = .ok m') :
    Tracks (l.record e.identity ⟨t, level⟩) m' := by
  have unlike : ∀ x ∈ m.entries, Identity.same x.2.identity e.identity = false := fun x hx =>
    Bool.eq_false_iff.2 (List.find?_eq_none.1 (h.find?_eq_none_iff.1 hn) x hx)
  constructor
  · rw [TokenMap.entries_add ha]
    refine List.pairwise_append.2 ⟨h.apart, List.pairwise_singleton _ _, fun x hx y hy => ?_⟩
    cases List.mem_singleton.1 hy
    exact unlike x hx
  · intro id
    rw [TokenMap.entries_add ha, find?_record]
    have append : entryFor (m.entries ++ [(t, e)]) id =
        (entryFor m.entries id).or (entryFor [(t, e)] id) := List.find?_append
    rw [append, entryFor.eq_def [(t, e)], List.find?_singleton]
    split
    · next hs =>
        rw [← entryFor_congr m.entries hs, h.find?_eq_none_iff.1 hn]
        rfl
    · rw [Option.or_none, h.token id]

/-- Every registration keeps the two in step. -/
theorem registerIn {fresh : (Token → Bool) → ι → Except RegistryFault Token}
    (h : l.Tracks m) (hr : Registry.registerIn fresh l m e level = .ok (u, l', m')) :
    l'.Tracks m' := by
  cases registerIn_step (fun _ hr => h.used hr) hr with
  | known r hk hl => exact h
  | raised r hk hl ht => exact h.raised hk
  | new t m' hn ha => exact h.new hn ha

end Ledger.Tracks

end Entries

/-! ### Two ledgers of one token map -/

section Compare

variable {named : Bool} {ι δ : Type} [Identity ι] [LawfulIdentity ι] {l l' : Ledger ι}
  {m m' : TokenMap named (Entity ι δ)} {e : Entity ι δ}
  {fresh : (Token → Bool) → ι → Except RegistryFault Token}

namespace Ledger.Tracks

/-- A ledger that is made anew knows the same identities. -/
theorem ofEntries_eq_none_iff (h : l.Tracks m) {id : ι} :
    (ofEntries m.entries).find? id = none ↔ l.find? id = none := by
  rw [h.find?_eq_none_iff, find?_ofEntries h.apart, Option.map_eq_none_iff]

/-- Of a new entity both ledgers say the same. -/
theorem registerIn_ofEntries_new (h : l.Tracks m) (hn : l.find? e.identity = none) :
    (Registry.registerIn fresh (ofEntries m.entries) m e .reference).map (fun p => (p.1, p.2.2)) =
      (Registry.registerIn fresh l m e .reference).map fun p => (p.1, p.2.2) := by
  have level : ¬ Registry.Undefined e .reference := fun h => h.1 rfl
  rw [Registry.registerIn_new hn level, Registry.registerIn_new (h.ofEntries_eq_none_iff.2 hn) level]
  cases Registry.newToken fresh m e.identity with
  | error f => rfl
  | ok t =>
      dsimp only
      cases m.add t e <;> rfl

/-- An entity that is on record has its token in both, and only the first may store something, under that token.  The one that is made anew tells the level of what is stored. -/
theorem registerIn_ofEntries_known (h : l.Tracks m) (hk : l.find? e.identity ≠ none) :
    ∃ t stored old l' m', m.get? t = some stored ∧ Identity.same stored.identity e.identity = true ∧
      Registry.registerIn fresh l m e .reference = .ok (⟨t, old⟩, l', m') ∧ m'.keys = m.keys ∧
      Registry.registerIn fresh (ofEntries m.entries) m e .reference =
        .ok (⟨t, stored.level⟩, ofEntries m.entries, m) := by
  obtain ⟨r, hr⟩ := Option.ne_none_iff_exists'.1 hk
  obtain ⟨stored, hstored⟩ := h.entry hr
  obtain ⟨get, same⟩ := get?_of_entryFor hstored
  have level : ¬ (Level.reference ≠ .reference ∧ ¬ e.isDefinition) := fun h => h.1 rfl
  have known : (ofEntries m.entries).find? e.identity = some ⟨r.token, stored.level⟩ := by
    rw [find?_ofEntries h.apart, hstored]
    rfl
  have anew : Registry.registerIn fresh (ofEntries m.entries) m e .reference =
      .ok (⟨r.token, stored.level⟩, ofEntries m.entries, m) := by
    have reached : ¬ stored.level < .reference := by
      rw [Entity.level]
      split <;> decide
    rw [Registry.registerIn, if_neg level, known]
    exact if_neg reached
  by_cases hl : r.level < .reference
  · have set : m.set r.token e = .ok (m.replace r.token e) := by
      rw [TokenMap.set, TokenMap.contains, decide_eq_true (h.used hr), if_pos rfl]
    refine ⟨r.token, stored, r.level, l.record e.identity ⟨r.token, .reference⟩,
      m.replace r.token e, get, same, ?_, TokenMap.keys_replace m r.token e, anew⟩
    rw [Registry.registerIn, if_neg level, hr]
    dsimp only
    rw [if_pos hl, set]
  · refine ⟨r.token, stored, r.level, l, m, get, same, ?_, rfl, anew⟩
    rw [Registry.registerIn, if_neg level, hr]
    exact if_neg hl

end Ledger.Tracks

end Compare

/-! ### Registrars -/

/-- The level that is asked for. -/
def Request.level : Request → Level
  | .type _ level   => level
  | .field _ level  => level
  | .method _ level => level

/-- Under a token, a catalog has the entity that a request is for, stored at a level. -/
def Catalog.Stores (c : Catalog) (t : Token) (level : Level) : Request → Prop
  | .type e _   => ∃ e', c.types.get? t = some e' ∧
      Identity.same e'.identity e.identity = true ∧ level = e'.level
  | .field e _  => ∃ e', c.fields.get? t = some e' ∧
      Identity.same e'.identity e.identity = true ∧ level = e'.level
  | .method e _ => ∃ e', c.methods.get? t = some e' ∧
      Identity.same e'.identity e.identity = true ∧ level = e'.level

namespace Registrar

/-- A registrar for what is in a catalog. -/
def resume (c : Catalog) : Registrar := ⟨.ofCatalog c, c⟩

/-- What is told, and the catalog that comes of it. -/
def answer (s : Registrar) (q : Request) : Except RegistryFault (Registered × Catalog) :=
  (s.serve q).map fun p => (p.1, p.2.catalog)

/-- All three ledgers are in step with the catalog. -/
structure Tracks (s : Registrar) : Prop where
  types : s.registry.types.Tracks s.catalog.types
  fields : s.registry.fields.Tracks s.catalog.fields
  methods : s.registry.methods.Tracks s.catalog.methods

variable {s : Registrar} {q : Request}

theorem tracks_start (o : Options) : (start o).Tracks := ⟨.empty, .empty, .empty⟩

theorem Tracks.after (h : s.Tracks) (q : Request) : (s.after q).Tracks := by
  rw [Registrar.after]
  cases hq : s.serve q with
  | error f => exact h
  | ok p =>
      obtain ⟨u, s'⟩ := p
      rcases serve_eq_ok hq with ⟨e, level, l, m, rfl, hr, rfl⟩ | ⟨e, level, l, m, rfl, hr, rfl⟩ |
        ⟨e, level, l, m, rfl, hr, rfl⟩
      · exact ⟨h.types.registerIn hr, h.fields, h.methods⟩
      · exact ⟨h.types, h.fields.registerIn hr, h.methods⟩
      · exact ⟨h.types, h.fields, h.methods.registerIn hr⟩

theorem Tracks.afterAll (h : s.Tracks) (qs : List Request) : (s.afterAll qs).Tracks := by
  induction qs generalizing s with
  | nil => exact h
  | cons q qs ih => exact ih (h.after q)

theorem Tracks.isNew_resume_iff (h : s.Tracks) (q : Request) :
    (resume s.catalog).IsNew q ↔ s.IsNew q := by
  cases q with
  | type e level => exact h.types.ofEntries_eq_none_iff
  | field e level => exact h.fields.ofEntries_eq_none_iff
  | method e level => exact h.methods.ofEntries_eq_none_iff

theorem answer_type (s : Registrar) (e : TypeEntity) (level : Level) :
    s.answer (.type e level) =
      ((Registry.registerIn (fun m id => Registry.freshName m (TypeIdentity.name id)) s.registry.types
        s.catalog.types e level).map fun p => (p.1, p.2.2)).map
          fun p => (p.1, { s.catalog with types := p.2 }) := by
  rw [answer, serve, Registry.registerType]
  generalize Registry.registerIn _ _ _ e level = r
  cases r <;> rfl

theorem answer_field (s : Registrar) (e : FieldEntity) :
    s.answer (.field e .reference) =
      ((Registry.registerIn Registry.freshMemberName s.registry.fields s.catalog.fields e .reference).map
        fun p => (p.1, p.2.2)).map fun p => (p.1, { s.catalog with fields := p.2 }) := by
  rw [answer, serve, Registry.registerField, if_neg (by decide)]
  generalize Registry.registerIn _ _ _ e .reference = r
  cases r <;> rfl

theorem answer_method (s : Registrar) (e : MethodEntity) :
    s.answer (.method e .reference) =
      ((Registry.registerIn Registry.freshMemberName s.registry.methods s.catalog.methods e .reference).map
        fun p => (p.1, p.2.2)).map fun p => (p.1, { s.catalog with methods := p.2 }) := by
  rw [answer, serve, Registry.registerMethod, if_neg (by decide)]
  generalize Registry.registerIn _ _ _ e .reference = r
  cases r <;> rfl

/-- Of a new entity both registrars say the same. -/
theorem Tracks.answer_resume_new (h : s.Tracks) (level : q.level = .reference) (isNew : s.IsNew q) :
    (resume s.catalog).answer q = s.answer q := by
  cases q with
  | type e l =>
      obtain rfl : l = .reference := level
      rw [answer_type, answer_type]
      exact congrArg _ (h.types.registerIn_ofEntries_new isNew)
  | field e l =>
      obtain rfl : l = .reference := level
      rw [answer_field, answer_field]
      exact congrArg _ (h.fields.registerIn_ofEntries_new isNew)
  | method e l =>
      obtain rfl : l = .reference := level
      rw [answer_method, answer_method]
      exact congrArg _ (h.methods.registerIn_ofEntries_new isNew)

/-- An entity that is known has one token for both registrars, under which it is stored. -/
theorem Tracks.answer_resume_known (h : s.Tracks) (level : q.level = .reference) (known : ¬ s.IsNew q) :
    ∃ t old stored s', s.catalog.Stores t stored q ∧ s.serve q = .ok (⟨t, old⟩, s') ∧
      (∀ k, s'.keys k = s.keys k) ∧
      (resume s.catalog).serve q = .ok (⟨t, stored⟩, resume s.catalog) := by
  cases q with
  | type e l =>
      obtain rfl : l = .reference := level
      obtain ⟨t, e', old, l', m', get, same, first, keys, second⟩ :=
        h.types.registerIn_ofEntries_known known
      refine ⟨t, old, e'.level, ⟨{ s.registry with types := l' }, { s.catalog with types := m' }⟩,
        ⟨e', get, same, rfl⟩, ?_, ?_, ?_⟩
      · rw [serve, Registry.registerType, first]
        rfl
      · intro k
        cases k with
        | type => exact keys
        | field => rfl
        | method => rfl
      · rw [serve, Registry.registerType, resume, Registry.ofCatalog, second]
        rfl
  | field e l =>
      obtain rfl : l = .reference := level
      obtain ⟨t, e', old, l', m', get, same, first, keys, second⟩ :=
        h.fields.registerIn_ofEntries_known known
      refine ⟨t, old, e'.level, ⟨{ s.registry with fields := l' }, { s.catalog with fields := m' }⟩,
        ⟨e', get, same, rfl⟩, ?_, ?_, ?_⟩
      · rw [serve, Registry.registerField, if_neg (by decide), first]
        rfl
      · intro k
        cases k with
        | type => rfl
        | field => exact keys
        | method => rfl
      · rw [serve, Registry.registerField, if_neg (by decide), resume, Registry.ofCatalog, second]
        rfl
  | method e l =>
      obtain rfl : l = .reference := level
      obtain ⟨t, e', old, l', m', get, same, first, keys, second⟩ :=
        h.methods.registerIn_ofEntries_known known
      refine ⟨t, old, e'.level, ⟨{ s.registry with methods := l' }, { s.catalog with methods := m' }⟩,
        ⟨e', get, same, rfl⟩, ?_, ?_, ?_⟩
      · rw [serve, Registry.registerMethod, if_neg (by decide), first]
        rfl
      · intro k
        cases k with
        | type => rfl
        | field => rfl
        | method => exact keys
      · rw [serve, Registry.registerMethod, if_neg (by decide), resume, Registry.ofCatalog, second]
        rfl

/-- A registrar that is given the catalog that another one has filled by any requests, beginning with none, leaves it as it is.  It knows the same entities.  A request for a reference to a new one it answers in the same way, with the same catalog in the end; for a known one it tells the same token and stores nothing, and the level it tells is the one that the entity is stored at. -/
theorem resume_agrees (o : Options) (qs : List Request) (q : Request) (level : q.level = .reference) :
    let s := (start o).afterAll qs
    (resume s.catalog).catalog = s.catalog ∧
      ((resume s.catalog).IsNew q ↔ s.IsNew q) ∧
      (s.IsNew q → (resume s.catalog).answer q = s.answer q) ∧
      (¬ s.IsNew q → ∃ t old stored s', s.catalog.Stores t stored q ∧
        s.serve q = .ok (⟨t, old⟩, s') ∧ (∀ k, s'.keys k = s.keys k) ∧
        (resume s.catalog).serve q = .ok (⟨t, stored⟩, resume s.catalog)) := by
  intro s
  have h : s.Tracks := (tracks_start o).afterAll qs
  exact ⟨rfl, h.isNew_resume_iff q, h.answer_resume_new level, h.answer_resume_known level⟩

/-- A type is registered with its children. -/
def furnished : Registrar :=
  (start ⟨14⟩).afterAll
    [.type (.reference ⟨"T", "N", none, none⟩) .reference,
      .type (.definition ⟨"T", "N", none, none⟩ {}) .withChildren]

/-- A reference to that type, whose list of enclosing names is empty and not absent. -/
def referenceAgain : Request := .type (.reference ⟨"T", "N", none, some []⟩) .reference

/-- The children are what the second registrar does not know of. -/
theorem resume_agrees_furnished : referenceAgain.level = .reference ∧
    furnished.serve referenceAgain = .ok (⟨.index 0, .withChildren⟩, furnished) ∧
    (resume furnished.catalog).serve referenceAgain =
      .ok (⟨.index 0, .definition⟩, resume furnished.catalog) := by
  have told : furnished.serve referenceAgain = .ok (⟨.index 0, .withChildren⟩, furnished) := rfl
  obtain ⟨-, -, -, known⟩ := resume_agrees ⟨14⟩
    [.type (.reference ⟨"T", "N", none, none⟩) .reference,
      .type (.definition ⟨"T", "N", none, none⟩ {}) .withChildren] referenceAgain rfl
  obtain ⟨t, old, stored, s', ⟨e, get, -, rfl⟩, first, -, second⟩ := known nofun
  cases told.symm.trans first
  have kept : furnished.catalog.types.get? (.index 0) =
      some (.definition ⟨"T", "N", none, none⟩ {}) := rfl
  cases kept.symm.trans get
  exact ⟨rfl, told, second⟩

end Registrar

end CilCatalog
