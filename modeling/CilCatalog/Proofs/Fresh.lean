import CilCatalog.Proofs.Journal
import CilCatalog.Proofs.Uses
import Mathlib.Data.List.Perm.Subperm

/-!
# Names for new entities

In a catalog with named tokens an entity that is new to the registry gets a name made from a text of its own: reserved octets are replaced, and if the name is in use, the least number from two on stands behind it that makes it free (`Fresh`).  Names in use are looked for in the token map, wherever they come from.

* `firstFree_eq_ok_iff`: the search gives the least free name of its range.
* `exists_free`: a token map with few entries leaves a name of the range free, since no two of them are the same.
* `Registrar.serve_fresh`: what a registrar tells of a new entity, when it refuses one, and what happens to the names in use as it serves requests.
-/

namespace CilCatalog

/-! ### Candidates -/

/-- A name with a number behind it. -/
def numbered (base : Bytes) (n : Nat) : Bytes := base ++ octet '_' :: Bytes.decimal n

theorem numbered_inj {base : Bytes} {m n : Nat} (h : numbered base m = numbered base n) : m = n :=
  Bytes.decimal_inj (List.cons.inj (List.append_cancel_left h)).2

theorem numbered_ne (base : Bytes) (n : Nat) : numbered base n ≠ base := by
  intro h
  have := congrArg List.length h
  rw [numbered, List.length_append, List.length_cons] at this
  omega

theorem ofName_numbered {base : Bytes} (h : ∀ b ∈ base, b ∉ reservedOctets) (n : Nat) :
    ∃ name : TokenName, Token.ofName (numbered base n) = .ok (.named name) ∧
      name.bytes = numbered base n := by
  have valid : ∀ b ∈ numbered base n, b ∉ reservedOctets := by
    intro b hb
    rcases List.mem_append.1 hb with hb | hb
    · exact h b hb
    rcases List.mem_cons.1 hb with rfl | hb
    · decide
    · intro reserved
      have digit := (Bytes.isDigits_decimal n).2 b hb
      rw [not_isDigit_reserved b reserved] at digit
      exact nomatch digit
  let name : TokenName := ⟨numbered base n, fun h => List.cons_ne_nil _ _ (List.append_eq_nil_iff.1 h).2, valid⟩
  exact ⟨name, congrArg (Except.map Token.named) (TokenName.ofBytes_bytes name), rfl⟩

/-- The name for an entity whose own is `base`, given those in use: the base itself, or the one with the least number that is free. -/
inductive Fresh (used : List Bytes) (base : Bytes) : Bytes → Prop where
  | plain (free : base ∉ used) : Fresh used base base
  | numbered (n : Nat) (from_two : 2 ≤ n) (taken : base ∈ used) (free : numbered base n ∉ used)
      (least : ∀ k, 2 ≤ k → k < n → numbered base k ∈ used) : Fresh used base (numbered base n)

theorem Fresh.free {used : List Bytes} {base name : Bytes} (h : Fresh used base name) :
    name ∉ used := by
  cases h with
  | plain free => exact free
  | numbered n _ _ free _ => exact free

/-! ### The search -/

/-- The names in use: the texts of the tokens. -/
def TokenMap.names {named : Bool} {α : Type} (m : TokenMap named α) : List Bytes :=
  m.keys.map Token.text

theorem TokenMap.length_names {named : Bool} {α : Type} (m : TokenMap named α) :
    m.names.length = m.size := by
  rw [names, keys, List.length_map, List.length_map, size]

namespace Registry

variable {α : Type} {m : TokenMap true α} {base text : Bytes}

/-- A name is in use exactly if it is the text of a token. -/
theorem contains_named (m : TokenMap true α) (name : TokenName) :
    m.contains (.named name) = true ↔ name.bytes ∈ m.names := by
  rw [TokenMap.contains, decide_eq_true_iff, TokenMap.names, List.mem_map]
  constructor
  · exact fun h => ⟨_, h, rfl⟩
  · rintro ⟨t, ht, text⟩
    cases t with
    | named n => rwa [← TokenName.ext_bytes text]
    | index i => cases m.wellKeyed.1 _ ht

/-- The search ends at the least free name of its range, or finds that there is none. -/
theorem firstFree_cases (valid : ∀ b ∈ base, b ∉ reservedOctets) (tries n : Nat) :
    (∃ k name, n ≤ k ∧ k < n + tries ∧ firstFree m.contains base tries n = .ok (.named name) ∧
      name.bytes = numbered base k ∧ numbered base k ∉ m.names ∧
      ∀ j, n ≤ j → j < k → numbered base j ∈ m.names) ∨
    (firstFree m.contains base tries n = .error (.namesExhausted base) ∧
      ∀ j, n ≤ j → j < n + tries → numbered base j ∈ m.names) := by
  induction tries generalizing n with
  | zero => exact .inr ⟨rfl, fun j hl hu => absurd hu (Nat.not_lt.2 hl)⟩
  | succ tries ih =>
      obtain ⟨name, hname, bytes⟩ := ofName_numbered valid n
      have step : firstFree m.contains base (tries + 1) n =
          if m.contains (.named name) then firstFree m.contains base tries (n + 1) else .ok (.named name) := by
        rw [firstFree]
        have : Token.ofName (base ++ octet '_' :: Bytes.decimal n) = .ok (.named name) := hname
        rw [this]
      rw [step]
      by_cases taken : m.contains (.named name) = true
      · rw [if_pos taken]
        rw [contains_named, bytes] at taken
        -- what holds from the next number on holds from this one on
        have from_here : ∀ u, (∀ j, n + 1 ≤ j → j < u → numbered base j ∈ m.names) →
            ∀ j, n ≤ j → j < u → numbered base j ∈ m.names := by
          intro u h j hl hu
          rcases Nat.eq_or_lt_of_le hl with rfl | hl
          · exact taken
          · exact h j hl hu
        rcases ih (n + 1) with ⟨k, name', hl, hu, found, bytes', free, below⟩ | ⟨exhausted, all⟩
        · exact .inl ⟨k, name', by omega, by omega, found, bytes', free, from_here k below⟩
        · refine .inr ⟨exhausted, from_here _ fun j hl hu => all j hl (by omega)⟩
      · rw [if_neg taken]
        rw [contains_named, bytes] at taken
        exact .inl ⟨n, name, Nat.le_refl n, by omega, rfl, bytes, taken,
          fun j hl hu => absurd hu (Nat.not_lt.2 hl)⟩

/-- A map in which the base and all numbers of a range are in use has more entries than the range has numbers. -/
theorem lt_size_of_taken {tries : Nat} (taken : base ∈ m.names)
    (all : ∀ j, 2 ≤ j → j < 2 + tries → numbered base j ∈ m.names) : tries < m.size := by
  have distinct : (base :: (List.range' 2 tries).map (numbered base)).Nodup := by
    refine List.nodup_cons.2 ⟨fun h => ?_, (List.nodup_range' 1).map fun _ _ => numbered_inj⟩
    obtain ⟨n, -, hn⟩ := List.mem_map.1 h
    exact numbered_ne base n hn
  have inside : base :: (List.range' 2 tries).map (numbered base) ⊆ m.names := by
    refine List.cons_subset.2 ⟨taken, fun b hb => ?_⟩
    obtain ⟨n, hn, rfl⟩ := List.mem_map.1 hb
    obtain ⟨hl, hu⟩ := List.mem_range'_1.1 hn
    exact all n hl hu
  have := (List.subperm_of_subset distinct inside).length_le
  rwa [List.length_cons, List.length_map, List.length_range', TokenMap.length_names] at this

/-- What names are made from: a text with reserved octets replaced. -/
def baseOf (text : Bytes) : Bytes := Bytes.replaceAny reservedOctets (octet '_') text

theorem baseOf_eq_nil_iff : baseOf text = [] ↔ text = [] := List.map_eq_nil_iff

theorem not_reserved_baseOf : ∀ b ∈ baseOf text, b ∉ reservedOctets := fun _ hb hr =>
  Bytes.not_mem_replaceAny text (by decide) hr hb

/-- A text gives a fresh name, unless it is empty or all numbers are taken. -/
theorem freshName_cases (m : TokenMap true α) (text : Bytes) :
    (text = [] ∧ freshName m.contains text = .error (.badName .empty)) ∨
    (∃ name, text ≠ [] ∧ freshName m.contains text = .ok (.named name) ∧
      Fresh m.names (baseOf text) name.bytes) ∨
    (text ≠ [] ∧ freshName m.contains text = .error (.namesExhausted (baseOf text)) ∧ lastSuffix ≤ m.size) := by
  by_cases empty : text = []
  · subst empty
    exact .inl ⟨rfl, rfl⟩
  right
  let name : TokenName := ⟨baseOf text, fun h => empty (baseOf_eq_nil_iff.1 h), not_reserved_baseOf⟩
  have hname : Token.ofName (baseOf text) = .ok (.named name) :=
    congrArg (Except.map Token.named) (TokenName.ofBytes_bytes name)
  have step : freshName m.contains text =
      if m.contains (.named name) then firstFree m.contains (baseOf text) (lastSuffix - 1) 2
      else .ok (.named name) := by
    rw [freshName, ← baseOf, hname]
  rw [step]
  by_cases taken : m.contains (.named name) = true
  · rw [if_pos taken]
    rw [contains_named] at taken
    rcases firstFree_cases not_reserved_baseOf (lastSuffix - 1) 2 with
      ⟨k, name', hl, -, found, bytes, free, below⟩ | ⟨exhausted, all⟩
    · refine .inl ⟨name', empty, found, ?_⟩
      rw [bytes]
      exact .numbered k hl taken free below
    · refine .inr ⟨empty, exhausted, ?_⟩
      have := lt_size_of_taken taken all
      exact Nat.le_of_pred_lt this
  · rw [if_neg taken]
    rw [contains_named] at taken
    exact .inl ⟨name, empty, rfl, .plain taken⟩

end Registry

/-- The text that a member's name is made from: the token of its declaring type and its own name.  Without a token for a declaring type there is none. -/
def MemberIdentity.text (id : MemberIdentity) : Option Bytes :=
  match id.type with
  | .token t => some (t.text ++ "::" ++ id.name)
  | type     => type.scope.map fun t => t.text ++ "<?>::" ++ id.name

namespace Registry

theorem freshMemberName_eq (taken : Token → Bool) (id : MemberIdentity) :
    freshMemberName taken id = match id.text with
      | some text => freshName taken text
      | none      => .error (.noScope id.name) := by
  obtain ⟨name, type, signature⟩ := id
  cases type with
  | token t => rfl
  | _ =>
      rw [freshMemberName, MemberIdentity.text]
      dsimp only
      cases SigTree.scope _ <;> rfl

theorem text_ne_nil {id : MemberIdentity} : id.text ≠ some [] := by
  rw [MemberIdentity.text]
  intro h
  split at h
  · exact absurd (List.append_eq_nil_iff.1 (List.append_eq_nil_iff.1 (Option.some.inj h)).1).2
      (by decide)
  · obtain ⟨t, -, h⟩ := Option.map_eq_some_iff.1 h
    exact absurd (List.append_eq_nil_iff.1 (List.append_eq_nil_iff.1 h).1).2 (by decide)

/-! ### Registrations -/

variable {named : Bool} {ι δ : Type} [Identity ι] {l l' : Ledger ι}
  {m m' : TokenMap named (Entity ι δ)} {e : Entity ι δ} {level : Level} {u : Registered}
  {fresh : (Token → Bool) → ι → Except RegistryFault Token} {text : ι → Option Bytes}

/-- Names are made from the texts of identities, and an identity without a text gets none. -/
def NamesBy (fresh : (Token → Bool) → ι → Except RegistryFault Token) (text : ι → Option Bytes) :
    Prop :=
  ∀ taken id, match text id with
    | some t => fresh taken id = freshName taken t
    | none   => ∃ f, fresh taken id = .error f

/-- An entity is to be stored as a definition and is none. -/
def Undefined (e : Entity ι δ) (level : Level) : Prop := level ≠ .reference ∧ ¬ e.isDefinition

theorem registerIn_undefined (h : Undefined e level) :
    registerIn fresh l m e level = .error (.referenceAt e.name level) := by
  rw [Undefined] at h
  rw [registerIn, if_pos h]

/-- A new entity is stored under the token that is made for it. -/
theorem registerIn_new (hn : l.find? e.identity = none) (defined : ¬ Undefined e level) :
    registerIn fresh l m e level =
      match newToken fresh m e.identity with
      | .error f => .error f
      | .ok t    =>
          match m.add t e with
          | .ok m'   => .ok (⟨t, level⟩, l.record e.identity ⟨t, level⟩, m')
          | .error f => .error (.store f) := by
  rw [Undefined] at defined
  exact (if_neg defined).trans (hn ▸ rfl)

/-- If tokens are names, a new entity gets a fresh one. -/
theorem fresh_of_registerIn (hnamed : named = true) (by_text : NamesBy fresh text)
    (hn : l.find? e.identity = none) (h : registerIn fresh l m e level = .ok (u, l', m')) :
    ∃ t name, text e.identity = some t ∧ u.token = .named name ∧
      Fresh m.names (baseOf t) name.bytes ∧ m'.entries = m.entries ++ [(u.token, e)] := by
  subst hnamed
  by_cases undefined : Undefined e level
  · rw [registerIn_undefined undefined] at h
    cases h
  rw [registerIn_new hn undefined, newToken, if_pos rfl] at h
  have made := by_text m.contains e.identity
  cases ht : text e.identity with
  | none =>
      rw [ht] at made
      obtain ⟨f, hf⟩ := made
      rw [hf] at h
      cases h
  | some t =>
      rw [ht] at made
      rw [show fresh m.contains e.identity = _ from made] at h
      rcases freshName_cases m t with ⟨-, hf⟩ | ⟨name, -, hf, isFresh⟩ | ⟨-, hf, -⟩
      · rw [hf] at h
        cases h
      · rw [hf] at h
        dsimp only at h
        split at h
        · next added =>
            cases h
            exact ⟨t, name, rfl, rfl, isFresh, TokenMap.entries_add added⟩
        · cases h
      · rw [hf] at h
        cases h

/-- If tokens are names and there are few of them, a new entity is refused for what it is alone. -/
theorem registerIn_isError_iff (hnamed : named = true) (by_text : NamesBy fresh text)
    (hn : l.find? e.identity = none) (few : m.size < lastSuffix) :
    (∃ f, registerIn fresh l m e level = .error f) ↔
      Undefined e level ∨ text e.identity = none ∨ text e.identity = some [] := by
  subst hnamed
  by_cases undefined : Undefined e level
  · rw [registerIn_undefined undefined]
    exact ⟨fun _ => .inl undefined, fun _ => ⟨_, rfl⟩⟩
  rw [registerIn_new hn undefined, newToken, if_pos rfl, or_iff_right undefined]
  have made := by_text m.contains e.identity
  cases ht : text e.identity with
  | none =>
      rw [ht] at made
      obtain ⟨f, hf⟩ := made
      rw [hf]
      exact ⟨fun _ => .inl rfl, fun _ => ⟨f, rfl⟩⟩
  | some t =>
      rw [ht] at made
      rw [show fresh m.contains e.identity = _ from made]
      rcases freshName_cases m t with ⟨rfl, hf⟩ | ⟨name, nonempty, hf, isFresh⟩ | ⟨-, -, many⟩
      · rw [hf]
        exact ⟨fun _ => .inr rfl, fun _ => ⟨_, rfl⟩⟩
      · have new : Token.named name ∉ m.keys := fun h =>
          isFresh.free (List.mem_map.2 ⟨_, h, rfl⟩)
        obtain ⟨m', added, -⟩ := add_of_wellKeyed e (wellKeyed_append_named m.wellKeyed new)
        rw [hf]
        simp only [added]
        constructor
        · rintro ⟨f, hf⟩
          cases hf
        · rintro (h | h)
          · cases h
          · exact absurd (Option.some.inj h) nonempty
      · exact absurd few (Nat.not_lt.2 many)

/-- Keys are only added. -/
theorem keys_of_registerIn (h : registerIn fresh l m e level = .ok (u, l', m')) :
    ∃ new, m'.keys = m.keys ++ new := by
  have of_add : ∀ {t : Token} {m₁ : TokenMap named (Entity ι δ)}, m.add t e = .ok m₁ →
      ∃ new, m₁.keys = m.keys ++ new := by
    intro t m₁ added
    exact ⟨[t], by rw [TokenMap.keys, TokenMap.entries_add added, List.map_append]; rfl⟩
  have same : ∃ new, m.keys = m.keys ++ new := ⟨[], (List.append_nil _).symm⟩
  rw [registerIn] at h
  split at h
  · cases h
  split at h
  · next r hr =>
      split at h
      · split at h
        · next m₁ set =>
            cases h
            rw [TokenMap.set] at set
            split at set
            · cases set
              rw [TokenMap.keys_replace]
              exact same
            · exact of_add set
        · cases h
      · cases h
        exact same
  · split at h
    · cases h
    · split at h
      · next added =>
          cases h
          exact of_add added
      · cases h

end Registry

/-! ### Requests -/

namespace Request

def kind : Request → EntityKind
  | .type _ _   => .type
  | .field _ _  => .field
  | .method _ _ => .method

/-- The text that a name is made from. -/
def text : Request → Option Bytes
  | .type e _   => some e.identity.name
  | .field e _  => e.identity.text
  | .method e _ => e.identity.text

/-- What no store can make good: a reference to be stored as a definition, a member with children, a name made from nothing. -/
def Malformed : Request → Prop
  | .type e level   => Registry.Undefined e level ∨ e.identity.name = []
  | .field e level  => level = .withChildren ∨ Registry.Undefined e level ∨ e.identity.text = none
  | .method e level => level = .withChildren ∨ Registry.Undefined e level ∨ e.identity.text = none

end Request

namespace Registrar

/-- The identity of an entity is not on record. -/
def IsNew (s : Registrar) : Request → Prop
  | .type e _   => s.registry.types.find? e.identity = none
  | .field e _  => s.registry.fields.find? e.identity = none
  | .method e _ => s.registry.methods.find? e.identity = none

/-- The tokens in use for one kind of entity. -/
def keys (s : Registrar) : EntityKind → List Token
  | .type   => s.catalog.types.keys
  | .field  => s.catalog.fields.keys
  | .method => s.catalog.methods.keys

/-- The names in use for one kind of entity. -/
def names (s : Registrar) (k : EntityKind) : List Bytes := (s.keys k).map Token.text

variable {s s' : Registrar} {q : Request} {u : Registered}

theorem namesBy_type : Registry.NamesBy
    (fun taken (id : TypeIdentity) => Registry.freshName taken id.name) fun id => some id.name :=
  fun _ _ => rfl

theorem namesBy_member : Registry.NamesBy Registry.freshMemberName MemberIdentity.text := by
  intro taken id
  have made := Registry.freshMemberName_eq taken id
  cases ht : id.text with
  | some t => rwa [ht] at made
  | none =>
      rw [ht] at made
      exact ⟨_, made⟩

/-- A new entity is told the fresh name that is made for it, which is then in use. -/
theorem fresh_of_serve (named : s.catalog.options.namedTokens = true) (isNew : s.IsNew q)
    (h : s.serve q = .ok (u, s')) :
    ∃ text name, q.text = some text ∧ u.token = .named name ∧
      Fresh (s.names q.kind) (Registry.baseOf text) name.bytes ∧
      s'.keys q.kind = s.keys q.kind ++ [u.token] := by
  have appended : ∀ {named' : Bool} {α : Type} {m m' : TokenMap named' α} {t : Token} {a : α},
      m'.entries = m.entries ++ [(t, a)] → m'.keys = m.keys ++ [t] := fun {_ _ m m' t a} h => by
    rw [TokenMap.keys, h, List.map_append]
    rfl
  rcases serve_eq_ok h with ⟨e, level, l, m, rfl, hr, rfl⟩ | ⟨e, level, l, m, rfl, hr, rfl⟩ |
    ⟨e, level, l, m, rfl, hr, rfl⟩
  · obtain ⟨t, name, ht, hu, isFresh, entries⟩ :=
      Registry.fresh_of_registerIn named namesBy_type isNew hr
    exact ⟨t, name, ht, hu, isFresh, appended entries⟩
  · obtain ⟨t, name, ht, hu, isFresh, entries⟩ :=
      Registry.fresh_of_registerIn named namesBy_member isNew hr
    exact ⟨t, name, ht, hu, isFresh, appended entries⟩
  · obtain ⟨t, name, ht, hu, isFresh, entries⟩ :=
      Registry.fresh_of_registerIn named namesBy_member isNew hr
    exact ⟨t, name, ht, hu, isFresh, appended entries⟩

/-- While there are few entries, a new entity is refused only for what it is alone. -/
theorem serve_isError_iff (named : s.catalog.options.namedTokens = true) (isNew : s.IsNew q)
    (few : (s.keys q.kind).length < Registry.lastSuffix) :
    (∃ f, s.serve q = .error f) ↔ q.Malformed := by
  have size : ∀ {named' : Bool} {α : Type} (m : TokenMap named' α), m.keys.length = m.size :=
    fun m => List.length_map _
  have member : ∀ {id : MemberIdentity}, id.text = none ∨ id.text = some [] ↔ id.text = none :=
    or_iff_left Registry.text_ne_nil
  cases q with
  | type e level =>
      have few : s.catalog.types.size < Registry.lastSuffix := size s.catalog.types ▸ few
      refine ((exists_bind_eq_error fun _ => ⟨_, rfl⟩).trans
        (exists_bind_eq_error fun _ => ⟨_, rfl⟩)).trans ?_
      rw [Registry.registerIn_isError_iff named namesBy_type isNew few, Request.Malformed]
      exact or_congr_right ⟨fun h => Option.some.inj (h.resolve_left nofun), fun h => .inr (congrArg some h)⟩
  | field e level =>
      have few : s.catalog.fields.size < Registry.lastSuffix := size s.catalog.fields ▸ few
      refine (exists_bind_eq_error fun _ => ⟨_, rfl⟩).trans ?_
      rw [Request.Malformed, Registry.registerField]
      split
      · next hl => exact ⟨fun _ => .inl hl, fun _ => ⟨_, rfl⟩⟩
      · next hl =>
          rw [or_iff_right hl]
          refine (exists_bind_eq_error fun _ => ⟨_, rfl⟩).trans ?_
          rw [Registry.registerIn_isError_iff named namesBy_member isNew few, member]
  | method e level =>
      have few : s.catalog.methods.size < Registry.lastSuffix := size s.catalog.methods ▸ few
      refine (exists_bind_eq_error fun _ => ⟨_, rfl⟩).trans ?_
      rw [Request.Malformed, Registry.registerMethod]
      split
      · next hl => exact ⟨fun _ => .inl hl, fun _ => ⟨_, rfl⟩⟩
      · next hl =>
          rw [or_iff_right hl]
          refine (exists_bind_eq_error fun _ => ⟨_, rfl⟩).trans ?_
          rw [Registry.registerIn_isError_iff named namesBy_member isNew few, member]

/-- No token is given up. -/
theorem keys_after (s : Registrar) (q : Request) (k : EntityKind) :
    ∃ new, (s.after q).keys k = s.keys k ++ new := by
  have same : ∃ new, s.keys k = s.keys k ++ new := ⟨[], (List.append_nil _).symm⟩
  rw [after]
  cases hq : s.serve q with
  | error f => exact same
  | ok p =>
      obtain ⟨u, s'⟩ := p
      rcases serve_eq_ok hq with ⟨e, level, l, m, rfl, hr, rfl⟩ | ⟨e, level, l, m, rfl, hr, rfl⟩ |
        ⟨e, level, l, m, rfl, hr, rfl⟩
      · cases k with
        | type => exact Registry.keys_of_registerIn hr
        | field => exact same
        | method => exact same
      · cases k with
        | type => exact same
        | field => exact Registry.keys_of_registerIn hr
        | method => exact same
      · cases k with
        | type => exact same
        | field => exact same
        | method => exact Registry.keys_of_registerIn hr

theorem keys_afterAll (s : Registrar) (qs : List Request) (k : EntityKind) :
    ∃ new, (s.afterAll qs).keys k = s.keys k ++ new := by
  induction qs generalizing s with
  | nil => exact ⟨[], (List.append_nil _).symm⟩
  | cons q qs ih =>
      obtain ⟨new, h⟩ := keys_after s q k
      obtain ⟨more, h'⟩ := ih (s.after q)
      refine ⟨new ++ more, ?_⟩
      rw [← List.append_assoc, ← h]
      exact h'

/-- No two entries have tokens with one text. -/
theorem names_nodup (s : Registrar) (k : EntityKind) : (s.names k).Nodup := by
  cases k with
  | type => exact texts_nodup s.catalog.types.wellKeyed
  | field => exact texts_nodup s.catalog.fields.wellKeyed
  | method => exact texts_nodup s.catalog.methods.wellKeyed

/-- If tokens are names, a new entity gets the fresh one that its text gives, and while there are fewer than 2^31-3 entries it gets one unless it is malformed.  Over any requests tokens are added only, and no two of them share a text. -/
theorem serve_fresh (s : Registrar) (named : s.catalog.options.namedTokens = true) :
    (∀ q, s.IsNew q →
      (∀ u s', s.serve q = .ok (u, s') → ∃ text name, q.text = some text ∧ u.token = .named name ∧
        Fresh (s.names q.kind) (Registry.baseOf text) name.bytes ∧
        s'.keys q.kind = s.keys q.kind ++ [u.token]) ∧
      ((s.keys q.kind).length < 0x7FFFFFFD → ((∃ f, s.serve q = .error f) ↔ q.Malformed))) ∧
    ∀ qs k, (∃ new, (s.afterAll qs).keys k = s.keys k ++ new) ∧ ((s.afterAll qs).names k).Nodup := by
  refine ⟨fun q isNew => ⟨fun u s' h => fresh_of_serve named isNew h, fun few => ?_⟩,
    fun qs k => ⟨keys_afterAll s qs k, names_nodup _ k⟩⟩
  refine serve_isError_iff named isNew (Nat.lt_trans few ?_)
  decide

/-- Two types are stored, and the name of the second is read as the first one's with a number. -/
def crowded : Registrar :=
  (start ⟨1⟩).afterAll
    [.type (.reference ⟨"T", "A", none, none⟩) .reference,
      .type (.reference ⟨"T@2", "A", none, none⟩) .reference]

/-- A type of the first one's name. -/
def namesake : Request := .type (.reference ⟨"T", "B", none, none⟩) .reference

theorem serve_fresh_crowded : crowded.catalog.options.namedTokens = true ∧ crowded.IsNew namesake ∧
    (∃ u s', crowded.serve namesake = .ok (u, s') ∧
      Fresh (["T", "T_2"] : List Bytes) "T" u.token.text ∧ u.token.text = "T_3") ∧
    ¬ ∃ f, crowded.serve namesake = .error f := by
  have names : crowded.names .type = (["T", "T_2"] : List Bytes) := by decide
  have isNew : crowded.IsNew namesake := rfl
  obtain ⟨u, s', h, text⟩ : ∃ u s', crowded.serve namesake = .ok (u, s') ∧ u.token.text = "T_3" :=
    ⟨_, _, rfl, rfl⟩
  obtain ⟨granted, refused⟩ := (serve_fresh crowded (by decide)).1 namesake isNew
  obtain ⟨t, name, ht, hu, isFresh, -⟩ := granted u s' h
  cases ht
  refine ⟨by decide, isNew, ⟨u, s', h, ?_, text⟩, fun h => ?_⟩
  · rw [hu, ← names]
    exact isFresh
  · rcases (refused (by decide)).1 h with ⟨level, -⟩ | empty
    · exact level rfl
    · exact absurd empty (by decide)

end Registrar

end CilCatalog
