import CilCatalog.Proofs.Comparison
import CilCatalog.Proofs.Partition
import CilCatalog.Registry

/-!
# Ledgers and what they are of

A ledger keeps the token and the level of every entity of a token map.  Identities are compared up to an absent list being empty; those that are registered are in a normal form, in which they are equal if they are the same (`NormalForm`).

* `Books`: every registration is of an entity in the map, and the other way round.
* `Ledger.Grows`: tokens stay, and levels do not fall.
* `RegisterStep`: the ways in which a registration may end.  Each keeps the books, lets the ledger grow, and stores nothing but the entity at hand.
-/

namespace CilCatalog

/-! ### Levels -/

namespace Level

theorem le_refl (a : Level) : a ≤ a := Int32.le_refl a.code

theorem le_trans {a b c : Level} (h : a ≤ b) (h' : b ≤ c) : a ≤ c := Int32.le_trans h h'

theorem le_of_lt {a b : Level} (h : a < b) : a ≤ b := Int32.le_of_lt h

theorem lt_of_le_of_lt {a b c : Level} (h : a ≤ b) (h' : b < c) : a < c := Int32.lt_of_le_of_lt h h'

end Level

/-! ### Identities in normal form -/

/-- References and definitions at the levels of their names. -/
theorem Entity.isDefinition_reference {ι δ : Type} (id : ι) :
    (Entity.reference id : Entity ι δ).isDefinition = true ↔ .definition ≤ Level.reference :=
  ⟨nofun, fun h => absurd h (by decide)⟩

theorem Entity.isDefinition_definition {ι δ : Type} (id : ι) (d : δ) {level : Level}
    (hl : .definition ≤ level) :
    (Entity.definition id d : Entity ι δ).isDefinition = true ↔ .definition ≤ level :=
  ⟨fun _ => hl, fun _ => rfl⟩

/-- Identities with a normal form, in which they are equal if they are the same. -/
class NormalForm (ι : Type) [Identity ι] where
  Normal : ι → Prop
  same_self : ∀ a : ι, Identity.same a a = true
  eq_of_same : ∀ {a b : ι}, Normal a → Normal b → Identity.same a b = true → a = b

export NormalForm (Normal same_self eq_of_same)

instance : NormalForm TypeIdentity where
  Normal t := t.enclosing ≠ some []
  same_self := Comparison.reference.typeIdentity_self
  eq_of_same := by
    intro a b ha hb h
    obtain ⟨n, ns, as, es⟩ := a
    obtain ⟨n', ns', as', es'⟩ := b
    simp only [Identity.same, Comparison.typeIdentity, Bool.and_eq_true, beq_iff_eq] at h
    obtain ⟨⟨⟨rfl, rfl⟩, rfl⟩, he⟩ := h
    cases es with
    | none =>
        cases es' with
        | none => rfl
        | some bs =>
            cases bs with
            | nil => exact absurd rfl hb
            | cons b bs => exact nomatch he
    | some as =>
        cases es' with
        | none =>
            cases as with
            | nil => exact absurd rfl ha
            | cons a as => exact nomatch he
        | some bs =>
            rw [Comparison.eq_of_list (fun a b => beq_iff_eq.1) as bs he]

instance : NormalForm MemberIdentity where
  Normal _ := True
  same_self := Comparison.reference.memberIdentity_self
  eq_of_same := by
    intro a b _ _ h
    obtain ⟨n, t, s⟩ := a
    obtain ⟨n', t', s'⟩ := b
    simp only [Identity.same, Comparison.memberIdentity, Bool.and_eq_true, beq_iff_eq] at h
    obtain ⟨⟨rfl, rfl⟩, rfl⟩ := h
    rfl

/-! ### Looking up registrations -/

section Lookup

variable {ι : Type} [Identity ι] [NormalForm ι] {l : Ledger ι} {id id' : ι} {r : Registration}

namespace Ledger

/-- Every identity is in normal form. -/
def IsNormal (l : Ledger ι) : Prop := ∀ e ∈ l, Normal e.1

omit [NormalForm ι] in
@[simp] theorem find?_nil : find? ([] : Ledger ι) id = none := rfl

omit [NormalForm ι] in
theorem find?_cons (e : ι × Registration) :
    find? (e :: l) id = if Identity.same e.1 id then some e.2 else find? l id := by
  rw [find?, List.find?_cons]
  cases Identity.same e.1 id <;> rfl

/-- What is on record is found. -/
theorem find?_of_mem {e : ι × Registration} (he : e ∈ l) : ∃ r, l.find? e.1 = some r := by
  cases hr : l.find? e.1 with
  | some r => exact ⟨r, rfl⟩
  | none =>
      rw [find?, Option.map_eq_none_iff, List.find?_eq_none] at hr
      exact absurd (same_self e.1) (hr e he)

theorem record_isNormal (hl : l.IsNormal) (hid : Normal id) (r : Registration) :
    (l.record id r).IsNormal := by
  induction l with
  | nil =>
      intro e he
      cases List.mem_singleton.1 he
      exact hid
  | cons e l ih =>
      have hl' : IsNormal l := fun e' he' => hl e' (List.mem_cons_of_mem e he')
      rw [record]
      split
      · intro e' he'
        rcases List.mem_cons.1 he' with rfl | he'
        · exact hl e List.mem_cons_self
        · exact hl' e' he'
      · intro e' he'
        rcases List.mem_cons.1 he' with rfl | he'
        · exact hl e' List.mem_cons_self
        · exact ih hl' e' he'

theorem find?_record_self (r : Registration) : (l.record id r).find? id = some r := by
  induction l with
  | nil => rw [record, find?_cons, if_pos (same_self id)]
  | cons e l ih =>
      rw [record]
      split
      · next he => rw [find?_cons, if_pos he]
      · next he => rw [find?_cons, if_neg he, ih]

/-- Recording an identity leaves the others alone. -/
theorem find?_record_of_ne (hl : l.IsNormal) (hid : Normal id) (hid' : Normal id') (hne : id ≠ id')
    (r : Registration) : (l.record id r).find? id' = l.find? id' := by
  induction l with
  | nil =>
      rw [record, find?_cons, if_neg fun h => hne (eq_of_same hid hid' h)]
  | cons e l ih =>
      have he := hl e List.mem_cons_self
      rw [record]
      split
      · next h =>
          have h' : ¬ Identity.same e.1 id' = true := fun h' =>
            hne ((eq_of_same he hid h).symm.trans (eq_of_same he hid' h'))
          rw [find?_cons, find?_cons, if_neg h', if_neg h']
      · rw [find?_cons, find?_cons, ih fun e' he' => hl e' (List.mem_cons_of_mem e he')]

/-- Tokens stay, and levels do not fall. -/
def Grows (l l' : Ledger ι) : Prop :=
  ∀ id r, Normal id → l.find? id = some r →
    ∃ r', l'.find? id = some r' ∧ r'.token = r.token ∧ r.level ≤ r'.level

theorem Grows.refl (l : Ledger ι) : Grows l l :=
  fun _ r _ h => ⟨r, h, rfl, Level.le_refl r.level⟩

theorem Grows.trans {l₁ l₂ l₃ : Ledger ι} (h : Grows l₁ l₂) (h' : Grows l₂ l₃) : Grows l₁ l₃ := by
  intro id r hn hr
  obtain ⟨r₂, hr₂, ht₂, hl₂⟩ := h id r hn hr
  obtain ⟨r₃, hr₃, ht₃, hl₃⟩ := h' id r₂ hn hr₂
  exact ⟨r₃, hr₃, ht₃.trans ht₂, Level.le_trans hl₂ hl₃⟩

end Ledger

end Lookup

/-! ### Entries of token maps -/

namespace TokenMap

variable {named : Bool} {α : Type} {m m' : TokenMap named α} {t t' : Token} {a : α}

theorem mem_of_get? (h : m.get? t = some a) : (t, a) ∈ m.entries := by
  obtain ⟨as, bs, he, -⟩ := List.lookup_eq_some_iff.1 h
  rw [he]
  exact List.mem_append_right _ List.mem_cons_self

theorem mem_keys_of_get? (h : m.get? t = some a) : t ∈ m.keys :=
  List.mem_map_of_mem (mem_of_get? h)

theorem mem_values_of_get? (h : m.get? t = some a) : a ∈ m.values :=
  List.mem_map_of_mem (mem_of_get? h)

theorem get?_of_get (h : m.get t = .ok a) : m.get? t = some a := by
  unfold get at h
  split at h
  · next ha => exact ha.trans (congrArg some (Except.ok.inj h))
  · exact nomatch h

theorem get_of_get? (h : m.get? t = some a) : m.get t = .ok a := by
  rw [get, h]

theorem get?_eq_none (h : t ∉ m.keys) : m.get? t = none := by
  cases hg : m.get? t with
  | none => rfl
  | some a => exact absurd (mem_keys_of_get? hg) h

theorem not_mem_keys_of_add (h : m.add t a = .ok m') : t ∉ m.keys := by
  intro ht
  rw [add, dif_pos ht] at h
  exact nomatch h

theorem get?_add (h : m.add t a = .ok m') (t' : Token) :
    m'.get? t' = if t' = t then some a else m.get? t' := by
  have new := not_mem_keys_of_add h
  rw [get?, entries_add h, List.lookup_append]
  split
  · next e =>
      subst e
      have : m.entries.lookup t' = none := get?_eq_none new
      rw [this]
      simp
  · next e =>
      have : (t' == t) = false := by simpa using e
      rw [List.lookup_cons, this]
      simp [get?]

theorem get?_replace_self (h : t ∈ m.keys) (a : α) : (m.replace t a).get? t = some a := by
  obtain ⟨es, wellKeyed⟩ := m
  change t ∈ es.map Prod.fst at h
  change List.lookup t (es.map fun e => if e.1 = t then (e.1, a) else e) = some a
  clear wellKeyed
  induction es with
  | nil => exact nomatch h
  | cons e es ih =>
      rw [List.map_cons]
      by_cases he : e.1 = t
      · rw [if_pos he, List.lookup_cons, he, beq_self_eq_true]
      · have h := (List.mem_cons.1 h).resolve_left (Ne.symm he)
        have : (t == e.1) = false := by simpa using Ne.symm he
        rw [if_neg he, List.lookup_cons, this]
        exact ih h

theorem get?_replace_of_ne (h : t' ≠ t) (a : α) : (m.replace t a).get? t' = m.get? t' := by
  obtain ⟨es, wellKeyed⟩ := m
  change List.lookup t' (es.map fun e => if e.1 = t then (e.1, a) else e) = List.lookup t' es
  clear wellKeyed
  induction es with
  | nil => rfl
  | cons e es ih =>
      obtain ⟨k, b⟩ := e
      have hk : (if (k, b).1 = t then ((k, b).1, a) else (k, b)).1 = k := by split <;> rfl
      rw [List.map_cons]
      by_cases ht : t' = k
      · subst ht
        rw [if_neg h]
        rw [List.lookup_cons_self, List.lookup_cons_self]
      · have : (t' == k) = false := by simpa using ht
        rw [List.lookup_cons, List.lookup_cons, hk, this]
        exact ih

end TokenMap

/-! ### Books -/

section Books

variable {named : Bool} {ι δ : Type} [Identity ι] [NormalForm ι] {l l' : Ledger ι}
  {m m' : TokenMap named (Entity ι δ)} {e : Entity ι δ} {level : Level} {u : Registered}

/-- Registrations and entities belong together, and exactly those above the level of a reference are definitions. -/
structure Books (l : Ledger ι) (m : TokenMap named (Entity ι δ)) : Prop where
  normal : l.IsNormal
  levels : ∀ id r, Normal id → l.find? id = some r → .reference ≤ r.level
  found : ∀ id r, Normal id → l.find? id = some r →
    ∃ e, m.get? r.token = some e ∧ e.identity = id ∧ (e.isDefinition = true ↔ .definition ≤ r.level)
  listed : ∀ t e, m.get? t = some e →
    Normal e.identity ∧ ∃ r, l.find? e.identity = some r ∧ r.token = t

theorem books_empty : Books ([] : Ledger ι) (.empty : TokenMap named (Entity ι δ)) where
  normal := nofun
  levels := nofun
  found := nofun
  listed := nofun

/-- There is one entity of an identity. -/
theorem Books.entity_unique (h : Books l m) {t t' : Token} {e e' : Entity ι δ}
    (he : m.get? t = some e) (he' : m.get? t' = some e') (hid : e.identity = e'.identity) :
    e = e' := by
  obtain ⟨-, r, hr, rfl⟩ := h.listed t e he
  obtain ⟨-, r', hr', rfl⟩ := h.listed t' e' he'
  rw [hid] at hr
  cases hr.symm.trans hr'
  exact Option.some.inj (he.symm.trans he')

/-- Where there are no new definitions, what is on record as defined has been so before. -/
theorem Books.defined_before {named' : Bool} {l' : Ledger ι} {m' : TokenMap named' (Entity ι δ)}
    (h : Books l m) (h' : Books l' m') (hplain : ∀ {t id d}, m'.get? t = some (.definition id d) →
      m.get? t = some (.definition id d)) {id : ι} {r' : Registration} (hid : Normal id)
    (hr' : l'.find? id = some r') (hl : .definition ≤ r'.level) :
    ∃ r, l.find? id = some r ∧ .definition ≤ r.level := by
  obtain ⟨e, he, hidentity, hdef⟩ := h'.found id r' hid hr'
  cases e with
  | reference id' => exact absurd (hdef.2 hl) Bool.false_ne_true
  | definition id' d =>
      obtain rfl : id' = id := hidentity
      obtain ⟨-, r, hr, htoken⟩ := h.listed _ _ (hplain he)
      obtain ⟨e, he', -, hdef⟩ := h.found _ r hid hr
      rw [htoken, hplain he] at he'
      cases he'
      exact ⟨r, hr, hdef.1 rfl⟩

/-- A token is of one identity. -/
theorem Books.inj (h : Books l m) {id id' : ι} {r r' : Registration} (hid : Normal id)
    (hid' : Normal id') (hr : l.find? id = some r) (hr' : l.find? id' = some r')
    (ht : r.token = r'.token) : id = id' := by
  obtain ⟨e, he, rfl, -⟩ := h.found id r hid hr
  obtain ⟨e', he', rfl, -⟩ := h.found id' r' hid' hr'
  rw [ht, he'] at he
  cases he
  rfl

/-- The token that is on record for an identity is in use. -/
theorem Books.used (hb : Books l m) {id : ι} (hid : Normal id) {r : Registration}
    (hr : l.find? id = some r) : r.token ∈ m.keys := by
  obtain ⟨_, hg, -, -⟩ := hb.found id r hid hr
  exact TokenMap.mem_keys_of_get? hg

/-- The books are kept when one entity is put on record and stored under the same token, as long as it has no other token and the token is of no other entity. -/
theorem Books.record (hb : Books l m) {t : Token} (he : Normal e.identity)
    (hl : .reference ≤ level) (hd : e.isDefinition = true ↔ .definition ≤ level)
    (stored : m'.get? t = some e) (others : ∀ {t'}, t' ≠ t → m'.get? t' = m.get? t')
    (own : ∀ {r}, l.find? e.identity = some r → r.token = t)
    (apart : ∀ {id r}, Normal id → e.identity ≠ id → l.find? id = some r → r.token ≠ t) :
    Books (l.record e.identity ⟨t, level⟩) m' where
  normal := Ledger.record_isNormal hb.normal he _
  levels id r hid hr := by
    by_cases heq : e.identity = id
    · subst heq
      rw [Ledger.find?_record_self] at hr
      cases hr
      exact hl
    · rw [Ledger.find?_record_of_ne hb.normal he hid heq] at hr
      exact hb.levels id r hid hr
  found id r hid hr := by
    by_cases heq : e.identity = id
    · subst heq
      rw [Ledger.find?_record_self] at hr
      cases hr
      exact ⟨e, stored, rfl, hd⟩
    · rw [Ledger.find?_record_of_ne hb.normal he hid heq] at hr
      rw [others (apart hid heq hr)]
      exact hb.found id r hid hr
  listed t' e' ht := by
    by_cases heq : t' = t
    · subst heq
      cases stored.symm.trans ht
      exact ⟨he, _, Ledger.find?_record_self _, rfl⟩
    · rw [others heq] at ht
      obtain ⟨hn, r, hr, htoken⟩ := hb.listed t' e' ht
      -- under another token there is another entity
      have hne : e.identity ≠ e'.identity := by
        intro hid
        rw [← hid] at hr
        exact heq (htoken.symm.trans (own hr))
      exact ⟨hn, r, (Ledger.find?_record_of_ne hb.normal he hn hne _).trans hr, htoken⟩

/-- The ways in which a registration may end. -/
inductive RegisterStep (l : Ledger ι) (m : TokenMap named (Entity ι δ)) (e : Entity ι δ)
    (level : Level) : Registered → Ledger ι → TokenMap named (Entity ι δ) → Prop where
  /-- The entity is on record at the level, or at a higher one. -/
  | known (r : Registration) (hr : l.find? e.identity = some r) (hl : level ≤ r.level) :
      RegisterStep l m e level ⟨r.token, r.level⟩ l m
  /-- The entity is on record at a lower level. -/
  | raised (r : Registration) (hr : l.find? e.identity = some r) (hl : r.level < level)
      (ht : r.token ∈ m.keys) :
      RegisterStep l m e level ⟨r.token, r.level⟩ (l.record e.identity ⟨r.token, level⟩)
        (m.replace r.token e)
  /-- The entity is new. -/
  | new (t : Token) (m' : TokenMap named (Entity ι δ)) (hn : l.find? e.identity = none)
      (ha : m.add t e = .ok m') :
      RegisterStep l m e level ⟨t, level⟩ (l.record e.identity ⟨t, level⟩) m'

omit [NormalForm ι] in
/-- A registration takes one of the steps if the token that is on record is in use. -/
theorem registerIn_step {fresh : (Token → Bool) → ι → Except RegistryFault Token}
    (used : ∀ r, l.find? e.identity = some r → r.token ∈ m.keys)
    (h : Registry.registerIn fresh l m e level = .ok (u, l', m')) : RegisterStep l m e level u l' m' := by
  unfold Registry.registerIn at h
  split at h
  · exact nomatch h
  · split at h
    · next r hr =>
        split at h
        · next hl =>
            have ht := used r hr
            have : m.set r.token e = .ok (m.replace r.token e) := by
              rw [TokenMap.set, TokenMap.contains, decide_eq_true ht, if_pos rfl]
            rw [this] at h
            cases h
            exact .raised r hr hl ht
        · next hl =>
            cases h
            exact .known r hr (Level.le_of_not_lt hl)
    · next hn =>
        split at h
        · exact nomatch h
        · next t _ =>
            cases ha : m.add t e with
            | error f =>
                rw [ha] at h
                exact nomatch h
            | ok m'' =>
                rw [ha] at h
                cases h
                exact .new t _ hn ha

omit [NormalForm ι] in
/-- A reference that is on record can be registered, which changes nothing. -/
theorem registerIn_known {fresh : (Token → Bool) → ι → Except RegistryFault Token}
    {id : ι} {r : Registration} (hr : l.find? id = some r) (hl : .reference ≤ r.level) :
    Registry.registerIn fresh l m (.reference id) .reference = .ok (⟨r.token, r.level⟩, l, m) := by
  unfold Registry.registerIn
  rw [if_neg (fun h => h.1 rfl)]
  have hr : l.find? (@Entity.identity ι δ (.reference id)) = some r := hr
  rw [hr]
  exact if_neg (Level.not_lt_of_le hl)

namespace RegisterStep

theorem grows (h : RegisterStep l m e level u l' m') (hb : Books l m) (he : Normal e.identity) :
    l.Grows l' := by
  cases h with
  | known r hr hl => exact .refl l
  | raised r hr hl ht =>
      intro id r' hid hr'
      by_cases heq : e.identity = id
      · subst heq
        cases hr.symm.trans hr'
        exact ⟨_, Ledger.find?_record_self _, rfl, Level.le_of_lt hl⟩
      · exact ⟨r', by rw [Ledger.find?_record_of_ne hb.normal he hid heq, hr'], rfl, Level.le_refl _⟩
  | new t m' hn ha =>
      intro id r' hid hr'
      have heq : e.identity ≠ id := by
        rintro rfl
        rw [hn] at hr'
        exact nomatch hr'
      exact ⟨r', by rw [Ledger.find?_record_of_ne hb.normal he hid heq, hr'], rfl, Level.le_refl _⟩

/-- The entity is on record afterwards, at the level or a higher one. -/
theorem recorded (h : RegisterStep l m e level u l' m') :
    ∃ r, l'.find? e.identity = some r ∧ r.token = u.token ∧ level ≤ r.level := by
  cases h with
  | known r hr hl => exact ⟨r, hr, rfl, hl⟩
  | raised r hr hl ht => exact ⟨_, Ledger.find?_record_self _, rfl, Level.le_refl _⟩
  | new t m' hn ha => exact ⟨_, Ledger.find?_record_self _, rfl, Level.le_refl _⟩

omit [NormalForm ι] in
/-- Nothing but the entity is stored. -/
theorem stored (h : RegisterStep l m e level u l' m') {t : Token} {e' : Entity ι δ}
    (ht : m'.get? t = some e') : m.get? t = some e' ∨ t = u.token ∧ e' = e := by
  cases h with
  | known r hr hl => exact .inl ht
  | raised r hr hl hk =>
      by_cases heq : t = r.token
      · subst heq
        rw [TokenMap.get?_replace_self hk] at ht
        exact .inr ⟨rfl, (Option.some.inj ht).symm⟩
      · rw [TokenMap.get?_replace_of_ne heq] at ht
        exact .inl ht
  | new t' m' hn ha =>
      rw [TokenMap.get?_add ha] at ht
      split at ht
      · next heq => exact .inr ⟨heq, (Option.some.inj ht).symm⟩
      · exact .inl ht

/-- Registering keeps the books. -/
theorem books (h : RegisterStep l m e level u l' m') (hb : Books l m) (he : Normal e.identity)
    (hl : .reference ≤ level) (hd : e.isDefinition = true ↔ .definition ≤ level) : Books l' m' := by
  cases h with
  | known r hr hle => exact hb
  | raised r hr hlt hk =>
      refine hb.record he hl hd (TokenMap.get?_replace_self hk e)
        (fun heq => TokenMap.get?_replace_of_ne heq e) ?own ?apart
      case own =>
        intro r' hr'
        cases hr.symm.trans hr'
        rfl
      case apart =>
        intro id r' hid hne hr' ht
        exact hne (hb.inj he hid hr hr' ht.symm)
  | new t m' hn ha =>
      have get := TokenMap.get?_add ha
      refine hb.record he hl hd ((get t).trans (if_pos rfl)) (fun heq => (get _).trans (if_neg heq))
        ?own ?apart
      case own =>
        intro r' hr'
        exact nomatch hn.symm.trans hr'
      case apart =>
        rintro id r' hid - hr' rfl
        exact TokenMap.not_mem_keys_of_add ha (hb.used hid hr')

omit [NormalForm ι] in
/-- What is under the token of another entity stays. -/
theorem kept_of_ne (h : RegisterStep l m e level u l' m') {t : Token} {e' : Entity ι δ}
    (ht : m.get? t = some e') (hne : t ≠ u.token) : m'.get? t = some e' := by
  cases h with
  | known r hr hl => exact ht
  | raised r hr hl hk => rw [TokenMap.get?_replace_of_ne hne, ht]
  | new t' m' hn ha => rw [TokenMap.get?_add ha, if_neg hne, ht]

/-- The registrations of other identities stay. -/
theorem find?_of_ne (h : RegisterStep l m e level u l' m') (hb : Books l m) (he : Normal e.identity)
    {id : ι} (hid : Normal id) (hne : e.identity ≠ id) : l'.find? id = l.find? id := by
  cases h with
  | known r hr hl => rfl
  | raised r hr hl hk => exact Ledger.find?_record_of_ne hb.normal he hid hne _
  | new t m' hn ha => exact Ledger.find?_record_of_ne hb.normal he hid hne _

/-- Unless nothing changes, the entity is on record at the level, and stored. -/
theorem own (h : RegisterStep l m e level u l' m') :
    (l' = l ∧ m' = m ∧ ∃ r, l.find? e.identity = some r ∧ r.token = u.token ∧ level ≤ r.level) ∨
      (l'.find? e.identity = some ⟨u.token, level⟩ ∧ m'.get? u.token = some e) := by
  cases h with
  | known r hr hl => exact .inl ⟨rfl, rfl, r, hr, rfl, hl⟩
  | raised r hr hl hk =>
      exact .inr ⟨Ledger.find?_record_self _, TokenMap.get?_replace_self hk e⟩
  | new t m' hn ha =>
      exact .inr ⟨Ledger.find?_record_self _, by rw [TokenMap.get?_add ha, if_pos rfl]⟩

/-- A reference is on record at the level that it has been found at. -/
theorem level_eq {id : ι} (h : RegisterStep l m (.reference id) .reference u l' m') (hb : Books l m)
    (hid : Normal id) : ∃ r, l'.find? id = some r ∧ r.token = u.token ∧ r.level = u.oldLevel := by
  cases h with
  | known r hr hl => exact ⟨r, hr, rfl, rfl⟩
  | raised r hr hl hk => exact absurd hl (Level.not_lt_of_le (hb.levels id r hid hr))
  | new t m' hn ha => exact ⟨_, Ledger.find?_record_self _, rfl, rfl⟩

/-- A definition is not replaced by something at no higher level. -/
theorem kept_definition (h : RegisterStep l m e level u l' m') (hb : Books l m)
    (he : Normal e.identity) (hl : level ≤ .definition) {t : Token} {id : ι} {d : δ}
    (ht : m.get? t = some (.definition id d)) : m'.get? t = some (.definition id d) := by
  cases h with
  | known r hr hle => exact ht
  | raised r hr hlt hk =>
      by_cases heq : t = r.token
      · -- what is raised was below the level of a definition
        subst heq
        obtain ⟨e', he', -, hdef⟩ := hb.found _ r he hr
        rw [ht] at he'
        cases he'
        exact absurd hlt (Level.not_lt_of_le (Level.le_trans hl (hdef.1 rfl)))
      · rw [TokenMap.get?_replace_of_ne heq, ht]
  | new t' m' hn ha =>
      have hne : t ≠ t' := by
        rintro rfl
        exact TokenMap.not_mem_keys_of_add ha (TokenMap.mem_keys_of_get? ht)
      rw [TokenMap.get?_add ha, if_neg hne, ht]

/-- Registering a reference keeps the books. -/
theorem books_reference {id : ι} (h : RegisterStep l m (.reference id) .reference u l' m')
    (hb : Books l m) (hid : Normal id) : Books l' m' := by
  exact h.books hb hid (Level.le_refl _) (Entity.isDefinition_reference id)

omit [NormalForm ι] in
/-- Registering a reference defines nothing. -/
theorem definition_of_reference {id : ι} (h : RegisterStep l m (.reference id) .reference u l' m')
    {t : Token} {id' : ι} {d : δ} (ht : m'.get? t = some (.definition id' d)) :
    m.get? t = some (.definition id' d) := by
  rcases h.stored ht with ht | ⟨-, he⟩
  · exact ht
  · exact nomatch he

/-- Registering a reference raises nothing. -/
theorem level_of_reference {id : ι}
    (h : RegisterStep l m (.reference id) .reference u l' m') (hb : Books l m) (hid : Normal id)
    {id' : ι} {r : Registration} (hid' : Normal id') (hr : l'.find? id' = some r)
    (hl : .definition ≤ r.level) : l.find? id' = some r := by
  cases h with
  | known r' hr' hle => exact hr
  | raised r' hr' hlt hk => exact absurd hlt (Level.not_lt_of_le (hb.levels id r' hid hr'))
  | new t m' hn ha =>
      by_cases heq : id = id'
      · subst heq
        rw [Entity.identity, Ledger.find?_record_self] at hr
        cases hr
        exact absurd (show Level.definition ≤ Level.reference from hl) (by decide)
      · rwa [Entity.identity, Ledger.find?_record_of_ne hb.normal hid hid' heq] at hr

omit [NormalForm ι] in
/-- An entity that is on record at the level is not registered again. -/
theorem known_of_le (h : RegisterStep l m e level u l' m') {r : Registration}
    (hr : l.find? e.identity = some r) (hl : level ≤ r.level) :
    u = ⟨r.token, r.level⟩ ∧ l' = l ∧ m' = m := by
  cases h with
  | known r' hr' hl' =>
      cases hr.symm.trans hr'
      exact ⟨rfl, rfl, rfl⟩
  | raised r' hr' hl' hk =>
      cases hr.symm.trans hr'
      exact absurd hl' (Level.not_lt_of_le hl)
  | new t m' hn ha =>
      rw [hn] at hr
      exact nomatch hr

end RegisterStep

end Books

end CilCatalog
