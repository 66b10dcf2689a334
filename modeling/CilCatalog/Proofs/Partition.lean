import CilCatalog.Partition
import CilCatalog.Proofs.Decimal
import CilCatalog.Proofs.Outcome
import Mathlib.Data.List.Nodup

/-!
# Catalogs come back from their partitions

* `split_ofEntries`: taking entities apart succeeds if their tokens have distinct texts, and keeps the references and the definitions in order.
* `joinIndexed_split`: indices in order put them together again.
* `joinNamed_turnsFrom`: so do the turns of a named map, as long as signed numbers of 32 bits hold them.
* `of_joinNamed`: conversely, whatever turns a section lists are taken exactly where the kind of entity changes.
* `Partition.toCatalog_ofCatalog`: a catalog is given back by its partition, unless it turns where no signed number of 32 bits is (`Partition.not_toCatalog_ofCatalog_late`).
-/

namespace CilCatalog

/-! ### Keys -/

theorem nodup_of_wellKeyed {named : Bool} {ks : List Token} (h : WellKeyed named ks) : ks.Nodup := by
  cases named with
  | true => exact h.2
  | false =>
      obtain ⟨hl, he⟩ := h
      rw [he]
      refine (List.nodup_range).map_on fun m hm n hn e => ?_
      have hm := List.mem_range.1 hm
      have hn := List.mem_range.1 hn
      have toInt := congrArg Int32.toInt (Token.index.inj e)
      rw [Int32.toInt_ofNat_of_lt (by omega), Int32.toInt_ofNat_of_lt (by omega)] at toInt
      omega

/-- A digit may occur in the name of a token. -/
theorem not_isDigit_reserved : ∀ b ∈ reservedOctets, Bytes.isDigit b = false := by
  decide +kernel

/-- The text of an index is its decimal numeral. -/
theorem text_index {n : Nat} (h : n < 0x80000000) :
    (Token.index (Int32.ofNat n)).text = Bytes.decimal n := by
  rw [Token.text, Int32.toInt_ofNat_of_lt h]
  rfl

/-- Tokens of one flavour are told apart by their texts. -/
theorem texts_nodup {named : Bool} {ks : List Token} (h : WellKeyed named ks) :
    (ks.map Token.text).Nodup := by
  refine (nodup_of_wellKeyed h).map_on fun s hs t ht e => ?_
  cases named with
  | true =>
      have hs := h.1 s hs
      have ht := h.1 t ht
      cases s with
      | index i => exact nomatch hs
      | named m =>
          cases t with
          | index i => exact nomatch ht
          | named n => exact congrArg Token.named (TokenName.ext_bytes e)
  | false =>
      obtain ⟨hl, hk⟩ := h
      rw [hk] at hs ht
      obtain ⟨m, hm, rfl⟩ := List.mem_map.1 hs
      obtain ⟨n, hn, rfl⟩ := List.mem_map.1 ht
      have hm := List.mem_range.1 hm
      have hn := List.mem_range.1 hn
      rw [text_index (by omega), text_index (by omega)] at e
      rw [Bytes.decimal_inj e]

/-- The beginning of keys in shape is in shape. -/
theorem wellKeyed_of_append {named : Bool} {ks ls : List Token} (h : WellKeyed named (ks ++ ls)) :
    WellKeyed named ks := by
  cases named with
  | true => exact ⟨fun k hk => h.1 k (List.mem_append_left ls hk), h.2.of_append_left⟩
  | false =>
      obtain ⟨hl, hk⟩ := h
      rw [List.length_append] at hl hk
      refine ⟨by omega, ?_⟩
      have := congrArg (List.take ks.length) hk
      rwa [List.take_left, ← List.map_take, List.take_range, Nat.min_eq_left (by omega)] at this

/-- The keys of an indexed map are found at their positions. -/
theorem index_of_wellKeyed {ks ls : List Token} {t : Token} (h : WellKeyed false (ks ++ t :: ls)) :
    t = .index (Int32.ofNat ks.length) ∧ ks.length < 0x80000000 := by
  obtain ⟨hl, hk⟩ := h
  have lt : ks.length < (ks ++ t :: ls).length := by simp
  have there := congrArg (fun ts => ts[ks.length]?) hk
  rw [List.getElem?_append_right (Nat.le_refl _), Nat.sub_self, List.getElem?_cons_zero,
    List.getElem?_map, List.getElem?_range lt] at there
  exact ⟨Option.some.inj there, by omega⟩

/-- An entry is added whose token keeps the keys in shape. -/
theorem add_of_wellKeyed {named : Bool} {α : Type} {m : TokenMap named α} {t : Token} (a : α)
    (h : WellKeyed named (m.keys ++ [t])) : ∃ m', m.add t a = .ok m' ∧ m'.entries = m.entries ++ [(t, a)] := by
  have new : t ∉ m.keys := by
    intro ht
    exact (List.nodup_append.1 (nodup_of_wellKeyed h)).2.2 t ht t (List.mem_singleton_self t) rfl
  have succeeds : ∃ m', m.add t a = .ok m' := by
    unfold TokenMap.add
    rw [dif_neg new]
    cases named with
    | true =>
        cases t with
        | named n => exact ⟨_, rfl⟩
        | index i =>
            have : (Token.index i).isNamed = true := h.1 _ (List.mem_append_right _ (List.mem_singleton_self _))
            exact nomatch this
    | false =>
        obtain ⟨hl, hk⟩ := h
        rw [List.length_append, List.length_singleton] at hl hk
        rw [List.range_succ, List.map_append] at hk
        obtain ⟨-, last⟩ := List.append_inj' hk rfl
        cases t with
        | named n => exact nomatch last
        | index i =>
            have hi : i.toInt = m.keys.length := by
              rw [Token.index.inj (List.singleton_inj.1 last), Int32.toInt_ofNat_of_lt (by omega)]
            exact ⟨_, dif_pos hi⟩
  obtain ⟨m', hm⟩ := succeeds
  exact ⟨m', hm, TokenMap.entries_add hm⟩

/-- A value is found under its key, which no other entry has. -/
theorem Keyed.get?_of_mem {α : Type} {m : Keyed α} {k : Bytes} {a : α} (h : (k, a) ∈ m.entries) :
    m.get? k = some a := by
  obtain ⟨as, bs, he⟩ := List.append_of_mem h
  refine List.lookup_eq_some_iff.2 ⟨as, bs, he, fun p hp => ?_⟩
  have distinct := m.distinct
  rw [he, List.map_append, List.map_cons] at distinct
  have := (List.nodup_append.1 distinct).2.2 p.1 (List.mem_map_of_mem hp) k List.mem_cons_self
  simpa using Ne.symm this

theorem Keyed.mem_of_get? {α : Type} {m : Keyed α} {k : Bytes} {a : α} (h : m.get? k = some a) :
    (k, a) ∈ m.entries := by
  obtain ⟨as, bs, he, -⟩ := List.lookup_eq_some_iff.1 h
  rw [he]
  exact List.mem_append_right as List.mem_cons_self

theorem TokenMap.ext_entries {named : Bool} {α : Type} {m n : TokenMap named α}
    (h : m.entries = n.entries) : m = n := by
  cases m
  cases n
  cases h
  rfl

namespace PartitionSection

variable {named : Bool} {ι δ φ : Type}

/-! ### Taking apart -/

/-- The references among entries, under the texts of their tokens. -/
def referencesOf : List (Token × Entity ι δ) → List (Bytes × ι)
  | []                          => []
  | (t, .reference id) :: es    => (t.text, id) :: referencesOf es
  | (_, .definition _ _) :: es  => referencesOf es

/-- The definitions among entries, under the texts of their tokens. -/
def definitionsOf : List (Token × Entity ι δ) → List (Bytes × (ι × δ))
  | []                          => []
  | (_, .reference _) :: es     => definitionsOf es
  | (t, .definition id d) :: es => (t.text, (id, d)) :: definitionsOf es

theorem mem_referencesOf {es : List (Token × Entity ι δ)} {k : Bytes} {id : ι} :
    (k, id) ∈ referencesOf es ↔ ∃ t, t.text = k ∧ (t, .reference id) ∈ es := by
  induction es with
  | nil => simp [referencesOf]
  | cons e es ih =>
      obtain ⟨t, e⟩ := e
      cases e with
      | reference i =>
          simp only [referencesOf, List.mem_cons, Prod.mk.injEq, ih, Entity.reference.injEq]
          constructor
          · rintro (⟨rfl, rfl⟩ | ⟨u, hu, hm⟩)
            · exact ⟨t, rfl, .inl ⟨rfl, rfl⟩⟩
            · exact ⟨u, hu, .inr hm⟩
          · rintro ⟨u, hu, ⟨rfl, rfl⟩ | hm⟩
            · exact .inl ⟨hu.symm, rfl⟩
            · exact .inr ⟨u, hu, hm⟩
      | definition i d => simp [referencesOf, ih]

theorem mem_definitionsOf {es : List (Token × Entity ι δ)} {k : Bytes} {p : ι × δ} :
    (k, p) ∈ definitionsOf es ↔ ∃ t, t.text = k ∧ (t, .definition p.1 p.2) ∈ es := by
  induction es with
  | nil => simp [definitionsOf]
  | cons e es ih =>
      obtain ⟨t, e⟩ := e
      cases e with
      | reference i => simp [definitionsOf, ih]
      | definition i d =>
          simp only [definitionsOf, List.mem_cons, Prod.mk.injEq, ih, Entity.definition.injEq]
          constructor
          · rintro (⟨rfl, rfl⟩ | ⟨u, hu, hm⟩)
            · exact ⟨t, rfl, .inl ⟨rfl, rfl, rfl⟩⟩
            · exact ⟨u, hu, .inr hm⟩
          · rintro ⟨u, hu, ⟨rfl, rfl, rfl⟩ | hm⟩
            · exact .inl ⟨hu.symm, rfl⟩
            · exact .inr ⟨u, hu, hm⟩

/-- Every entity goes to one side. -/
theorem length_sides (es : List (Token × Entity ι δ)) :
    (referencesOf es).length + (definitionsOf es).length = es.length := by
  induction es with
  | nil => rfl
  | cons e es ih =>
      obtain ⟨t, e⟩ := e
      cases e with
      | reference i => simp only [referencesOf, definitionsOf, List.length_cons]; omega
      | definition i d => simp only [referencesOf, definitionsOf, List.length_cons]; omega

/-- Entities whose tokens have distinct new texts are taken apart, each side in order. -/
theorem split_ofEntries (es : List (Token × Entity ι δ)) (s : PartitionSection ι δ)
    (distinct : (es.map fun e => e.1.text).Nodup)
    (new : ∀ e ∈ es, e.1.text ∉ s.references.keys ∧ e.1.text ∉ s.definitions.keys) :
    ∃ s' : PartitionSection ι δ, (split es s : Except (Failure φ) _) = .ok s' ∧
      s'.references.entries = s.references.entries ++ referencesOf es ∧
      s'.definitions.entries = s.definitions.entries ++ definitionsOf es ∧ s'.turns = s.turns := by
  induction es generalizing s with
  | nil => exact ⟨s, rfl, by simp [referencesOf], by simp [definitionsOf], rfl⟩
  | cons e es ih =>
      obtain ⟨t, e⟩ := e
      obtain ⟨ht, distinctLater⟩ := List.nodup_cons.1 distinct
      have newHere := new (t, e) List.mem_cons_self
      have newLater : ∀ e' ∈ es, e'.1.text ≠ t.text ∧ e'.1.text ∉ s.references.keys ∧
          e'.1.text ∉ s.definitions.keys := by
        intro e' he
        refine ⟨fun h => ht ?_, new e' (List.mem_cons_of_mem _ he)⟩
        exact List.mem_map.2 ⟨e', he, h⟩
      -- the entry goes to one of the two maps, where its text is new, and is new to what comes later
      cases e with
      | reference id =>
          obtain ⟨m, hm⟩ : ∃ m, s.references.add? t.text id = some m := ⟨_, dif_neg newHere.1⟩
          have entries := Keyed.entries_add? hm
          have keys : m.keys = s.references.keys ++ [t.text] := by
            rw [Keyed.keys, entries, List.map_append]; rfl
          obtain ⟨s', hs, hr, hd, hu⟩ := ih { s with references := m } distinctLater fun e' he => by
            obtain ⟨hne, hr, hd⟩ := newLater e' he
            refine ⟨?_, hd⟩
            rw [keys, List.mem_append, List.mem_singleton]
            exact not_or.2 ⟨hr, hne⟩
          refine ⟨s', ?_, ?_, hd, hu⟩
          · rw [split, hm]
            exact hs
          · rw [hr, entries, List.append_assoc]
            rfl
      | definition id d =>
          obtain ⟨m, hm⟩ : ∃ m, s.definitions.add? t.text (id, d) = some m := ⟨_, dif_neg newHere.2⟩
          have entries := Keyed.entries_add? hm
          have keys : m.keys = s.definitions.keys ++ [t.text] := by
            rw [Keyed.keys, entries, List.map_append]; rfl
          obtain ⟨s', hs, hr, hd, hu⟩ := ih { s with definitions := m } distinctLater fun e' he => by
            obtain ⟨hne, hr, hd⟩ := newLater e' he
            refine ⟨hr, ?_⟩
            rw [keys, List.mem_append, List.mem_singleton]
            exact not_or.2 ⟨hd, hne⟩
          refine ⟨s', ?_, hr, ?_, hu⟩
          · rw [split, hm]
            exact hs
          · rw [hd, entries, List.append_assoc]
            rfl

/-! ### Indices -/

/-- An entity is found under the text of its token. -/
theorem get?_of_mem {es : List (Token × Entity ι δ)} {s : PartitionSection ι δ}
    (distinct : (es.map fun e => e.1.text).Nodup) (hr : s.references.entries = referencesOf es)
    (hd : s.definitions.entries = definitionsOf es) {t : Token} {e : Entity ι δ} (h : (t, e) ∈ es) :
    s.get? t.text = some e := by
  cases e with
  | reference id =>
      have found : s.references.get? t.text = some id :=
        Keyed.get?_of_mem (hr ▸ mem_referencesOf.2 ⟨t, rfl, h⟩)
      rw [get?, found]
  | definition id d =>
      have found : s.definitions.get? t.text = some (id, d) :=
        Keyed.get?_of_mem (hd ▸ mem_definitionsOf.2 ⟨t, rfl, h⟩)
      have missing : s.references.get? t.text = none := by
        -- a reference under the same text would be another entry
        cases hg : s.references.get? t.text with
        | none => rfl
        | some id' =>
            obtain ⟨u, hu, hm⟩ := mem_referencesOf.1 (hr ▸ Keyed.mem_of_get? hg)
            exact nomatch congrArg Prod.snd (List.inj_on_of_nodup_map distinct hm h hu)
      rw [get?, missing, found]
      rfl

/-- Looking up the indices in order gives the entities in order. -/
theorem joinIndexed_split {part : String} {s : PartitionSection ι δ}
    (post : List (Token × Entity ι δ)) (m : TokenMap false (Entity ι δ))
    (keyed : WellKeyed false ((m.entries ++ post).map Prod.fst))
    (found : ∀ e ∈ post, s.get? e.1.text = some e.2) :
    ∃ m', joinIndexed part s post.length m.size m = .ok m' ∧ m'.entries = m.entries ++ post := by
  induction post generalizing m with
  | nil => exact ⟨m, rfl, by simp⟩
  | cons e post ih =>
      obtain ⟨t, e⟩ := e
      rw [List.map_append, List.map_cons] at keyed
      obtain ⟨ht, lt⟩ := index_of_wellKeyed keyed
      have place : (m.entries.map Prod.fst).length = m.size := List.length_map _
      rw [place] at ht lt
      subst ht
      have begun : WellKeyed false (m.keys ++ [.index (Int32.ofNat m.size)]) := by
        refine @wellKeyed_of_append _ _ (post.map Prod.fst) ?_
        rwa [List.append_assoc]
      obtain ⟨m', added, entries⟩ := add_of_wellKeyed e begun
      have here := found _ List.mem_cons_self
      rw [text_index lt] at here
      have size : m'.size = m.size + 1 := by
        rw [TokenMap.size, entries, List.length_append]; rfl
      have left : WellKeyed false ((m'.entries ++ post).map Prod.fst) := by
        rwa [entries, List.append_assoc, List.map_append]
      obtain ⟨m'', joined, all⟩ := ih m' left fun e' he => found e' (List.mem_cons_of_mem _ he)
      rw [size] at joined
      refine ⟨m'', ?_, by rw [all, entries, List.append_assoc]; rfl⟩
      rw [List.length_cons, joinIndexed, here]
      simp only [added]
      exact joined

/-! ### Turns -/

/-- The positions from `n` on at which the kind of entity changes; `defs` is the kind in front of them. -/
def turningPoints (defs : Bool) (n : Nat) : List (Entity ι δ) → List Nat
  | []      => []
  | e :: es =>
      let rest := turningPoints e.isDefinition (n + 1) es
      if e.isDefinition = defs then rest else n :: rest

/-- References in a row turn at the definition behind them. -/
theorem turningPoints_replicate (id id' : ι) (d : δ) (k n : Nat) :
    turningPoints false k (List.replicate n (Entity.reference id) ++ [.definition id' d]) = [k + n] := by
  induction n generalizing k with
  | zero => rfl
  | succ n ih =>
      rw [List.replicate_succ, List.cons_append, turningPoints]
      exact (ih (k + 1)).trans (by rw [Nat.add_assoc, Nat.add_comm 1])

/-- A section lists the turning points as signed numbers of 32 bits. -/
theorem turnsFrom_eq_map (defs : Bool) (n : Nat) (es : List (Entity ι δ)) :
    turnsFrom defs n es = (turningPoints defs n es).map Int32.ofNat := by
  induction es generalizing defs n with
  | nil => rfl
  | cons e es ih =>
      rw [turnsFrom, turningPoints, ih]
      by_cases he : e.isDefinition = defs
      · rw [if_pos he, if_pos he]
      · rw [if_neg he, if_neg he]
        rfl

theorem turningPoints_bounds {es : List (Entity ι δ)} {defs : Bool} {n : Nat} :
    ∀ i ∈ turningPoints defs n es, n ≤ i ∧ i < n + es.length := by
  induction es generalizing defs n with
  | nil => simp [turningPoints]
  | cons e es ih =>
      have later : ∀ i ∈ turningPoints e.isDefinition (n + 1) es, n ≤ i ∧ i < n + (es.length + 1) := by
        intro i hi
        have := ih i hi
        omega
      intro i hi
      rw [List.length_cons]
      rw [turningPoints] at hi
      by_cases he : e.isDefinition = defs
      · rw [if_pos he] at hi
        exact later i hi
      · rw [if_neg he] at hi
        rcases List.mem_cons.1 hi with rfl | hi
        · omega
        · exact later i hi

/-- A signed number of 32 bits holds every turning point. -/
def TurnsFit (defs : Bool) (n : Nat) (es : List (Entity ι δ)) : Prop :=
  ∀ i ∈ turningPoints defs n es, i < 0x80000000

theorem turnsFit_of_length {es : List (Entity ι δ)} (defs : Bool) {n : Nat}
    (h : n + es.length ≤ 0x80000000) : TurnsFit defs n es := fun i hi =>
  Nat.lt_of_lt_of_le (turningPoints_bounds i hi).2 h

theorem TurnsFit.tail {e : Entity ι δ} {es : List (Entity ι δ)} {defs : Bool} {n : Nat}
    (h : TurnsFit defs n (e :: es)) : TurnsFit e.isDefinition (n + 1) es := by
  intro i hi
  refine h i ?_
  rw [turningPoints]
  by_cases he : e.isDefinition = defs
  · rwa [if_pos he]
  · rw [if_neg he]
    exact List.mem_cons_of_mem n hi

/-- The next turn is taken exactly at an entity of the other kind. -/
theorem turn_turnsFrom {e : Entity ι δ} {es : List (Entity ι δ)} {defs : Bool} {n : Nat}
    (h : TurnsFit defs n (e :: es)) :
    turn n defs (turnsFrom defs n (e :: es)) = (e.isDefinition, turnsFrom e.isDefinition (n + 1) es) := by
  have later := h.tail
  rw [turnsFrom_eq_map, turnsFrom_eq_map, turningPoints]
  by_cases he : e.isDefinition = defs
  · rw [if_pos he, ← he]
    cases hu : turningPoints e.isDefinition (n + 1) es with
    | nil => rfl
    | cons i is =>
        have hi : i ∈ turningPoints e.isDefinition (n + 1) es := hu ▸ List.mem_cons_self
        have := (turningPoints_bounds i hi).1
        refine if_neg ?_
        rw [Int32.toInt_ofNat_of_lt (later i hi)]
        omega
  · have here : n < 0x80000000 := h n (by rw [turningPoints, if_neg he]; exact List.mem_cons_self)
    rw [if_neg he, List.map_cons, turn, if_pos (Int32.toInt_ofNat_of_lt here),
      Bool.eq_not.2 (Ne.symm he)]
    simp

/-- Taking turns puts the entities together again. -/
theorem joinNamed_turnsFrom {part : String} (post : List (Token × Entity ι δ)) (defs : Bool)
    (m : TokenMap true (Entity ι δ)) (keyed : WellKeyed true ((m.entries ++ post).map Prod.fst))
    (fit : TurnsFit defs m.size (post.map Prod.snd)) :
    ∃ m', joinNamed part post.length m.size defs (turnsFrom defs m.size (post.map Prod.snd))
        (referencesOf post) (definitionsOf post) m = .ok m' ∧ m'.entries = m.entries ++ post := by
  induction post generalizing m defs with
  | nil => exact ⟨m, rfl, by simp⟩
  | cons e post ih =>
      obtain ⟨t, e⟩ := e
      rw [List.map_cons] at fit
      rw [List.map_append, List.map_cons] at keyed
      have begun : WellKeyed true (m.keys ++ [t]) := by
        refine @wellKeyed_of_append _ _ (post.map Prod.fst) ?_
        rwa [List.append_assoc]
      -- the next entry can be added, since the keys up to it are in shape
      obtain ⟨m', added, entries⟩ := add_of_wellKeyed e begun
      have grown : m'.size = m.size + 1 := by
        rw [TokenMap.size, entries, List.length_append]; rfl
      have left : WellKeyed true ((m'.entries ++ post).map Prod.fst) := by
        rwa [entries, List.append_assoc, List.map_append]
      obtain ⟨m'', joined, all⟩ := ih e.isDefinition m' left (by rw [grown]; exact fit.tail)
      have name : Token.ofName t.text = .ok t := by
        cases t with
        | named n => exact congrArg (Except.map Token.named) (TokenName.ofBytes_bytes n)
        | index i => exact nomatch begun.1 _ (List.mem_append_right _ (List.mem_singleton_self _))
      have next := turn_turnsFrom fit
      rw [grown] at joined
      refine ⟨m'', ?_, by rw [all, entries, List.append_assoc]; rfl⟩
      rw [List.length_cons, List.map_cons, joinNamed.eq_def]
      dsimp only
      rw [next]
      cases e with
      | reference id =>
          rw [referencesOf, definitionsOf]
          simp only [Entity.isDefinition, Entity.data?, Option.isSome, addNamed, name, added, ok_bind]
          exact joined
      | definition id d =>
          rw [referencesOf, definitionsOf]
          simp only [Entity.isDefinition, Entity.data?, Option.isSome, addNamed, name, added, ok_bind]
          exact joined

/-! ### What comes from a section -/

/-- An entity is one of the given references and definitions. -/
def Among (rs : List (Bytes × ι)) (ds : List (Bytes × (ι × δ))) : Entity ι δ → Prop
  | .reference id    => id ∈ rs.map Prod.snd
  | .definition id d => (id, d) ∈ ds.map Prod.snd

/-- An entity that is found is one of the section. -/
theorem among_of_get? {s : PartitionSection ι δ} {k : Bytes} {e : Entity ι δ} (h : s.get? k = some e) :
    Among s.references.entries s.definitions.entries e := by
  rw [get?] at h
  split at h
  · next id hr =>
      cases h
      exact List.mem_map.2 ⟨_, Keyed.mem_of_get? hr, rfl⟩
  · obtain ⟨d, hd, he⟩ := Option.map_eq_some_iff.1 h
    cases he
    exact List.mem_map.2 ⟨_, Keyed.mem_of_get? hd, rfl⟩

/-- An indexed map has no more entries than signed numbers of 32 bits have indices. -/
theorem size_le_of_indexed {α : Type} (m : TokenMap false α) : m.size ≤ 0x80000000 := by
  have := m.wellKeyed.1
  rwa [List.length_map] at this

/-- Every entity comes from under the text of its token. -/
theorem of_joinIndexed {part : String} {s : PartitionSection ι δ} (todo : Nat)
    {m m' : TokenMap false (Entity ι δ)} (h : joinIndexed part s todo m.size m = .ok m') :
    ∃ post : List (Token × Entity ι δ), m'.entries = m.entries ++ post ∧ post.length = todo ∧
      ∀ e ∈ post, s.get? e.1.text = some e.2 := by
  induction todo generalizing m with
  | zero =>
      cases h
      exact ⟨[], by simp, rfl, by simp⟩
  | succ todo ih =>
      rw [joinIndexed] at h
      split at h
      · cases h
      · next e found =>
          split at h
          · next m₁ added =>
              have entries := TokenMap.entries_add added
              have grown : m₁.size = m.size + 1 := by
                rw [TokenMap.size, entries, List.length_append]; rfl
              have lt : m.size < 0x80000000 := by
                have := size_le_of_indexed m₁
                omega
              rw [← grown] at h
              obtain ⟨post, all, length, each⟩ := ih h
              refine ⟨(.index (Int32.ofNat m.size), e) :: post,
                by rw [all, entries, List.append_assoc]; rfl, by rw [List.length_cons, length],
                List.forall_mem_cons.2 ⟨?_, each⟩⟩
              rw [text_index lt]
              exact found
          · cases h

theorem text_of_ofName {k : Bytes} {t : Token} (h : Token.ofName k = .ok t) : t.text = k := by
  cases hn : TokenName.ofBytes k with
  | error f => rw [Token.ofName, hn] at h; exact nomatch h
  | ok n =>
      rw [Token.ofName, hn] at h
      cases h
      exact TokenName.bytes_of_ofBytes hn

theorem entries_addNamed {part : String} {k : Bytes} {e : Entity ι δ} {m m' : TokenMap named (Entity ι δ)}
    (h : addNamed part k e m = .ok m') : ∃ t : Token, t.text = k ∧ m'.entries = m.entries ++ [(t, e)] := by
  rw [addNamed] at h
  split at h
  · cases h
  · next t name =>
      split at h
      · next added =>
          cases h
          exact ⟨t, text_of_ofName name, TokenMap.entries_add added⟩
      · cases h

/-- A turn taken for an entity is one of its turning points. -/
theorem points_of_turn {n : Nat} {defs : Bool} {turns turns' : List Int32} {e : Entity ι δ}
    {es : List (Entity ι δ)} (h : turn n defs turns = (e.isDefinition, turns'))
    (later : turns'.map Int32.toInt = (turningPoints e.isDefinition (n + 1) es).map Int.ofNat) :
    turns.map Int32.toInt = (turningPoints defs n (e :: es)).map Int.ofNat := by
  rw [turningPoints]
  cases turns with
  | nil =>
      obtain ⟨he, rfl⟩ := Prod.mk.inj h
      rwa [if_pos he.symm]
  | cons i is =>
      rw [turn] at h
      split at h
      · next hi =>
          obtain ⟨he, rfl⟩ := Prod.mk.inj h
          rw [if_neg (by rw [← he]; simp), List.map_cons, hi, later]
          rfl
      · obtain ⟨he, rfl⟩ := Prod.mk.inj h
        rwa [if_pos he.symm]

/-- The turns of a named section are taken one by one, and each where the kind of entity changes; the references and the definitions come in order, each under its key. -/
theorem of_joinNamed {part : String} (todo : Nat) {n : Nat} {defs : Bool} {turns : List Int32}
    {rs : List (Bytes × ι)} {ds : List (Bytes × (ι × δ))} {m m' : TokenMap named (Entity ι δ)}
    (size : todo = rs.length + ds.length) (h : joinNamed part todo n defs turns rs ds m = .ok m') :
    ∃ post : List (Token × Entity ι δ), m'.entries = m.entries ++ post ∧
      turns.map Int32.toInt = (turningPoints defs n (post.map Prod.snd)).map Int.ofNat ∧
      referencesOf post = rs ∧ definitionsOf post = ds := by
  induction todo generalizing n defs turns rs ds m with
  | zero =>
      obtain rfl : rs = [] := List.eq_nil_of_length_eq_zero (by omega)
      obtain rfl : ds = [] := List.eq_nil_of_length_eq_zero (by omega)
      rw [joinNamed] at h
      split at h
      · next hu =>
          cases h
          rw [List.isEmpty_iff.1 hu]
          exact ⟨[], by simp, rfl, rfl, rfl⟩
      · cases h
  | succ todo ih =>
      -- one entry is taken from either list, of the kind that the turns say
      have step : ∀ {e : Entity ι δ} {k : Bytes} {turns' : List Int32} {rs' : List (Bytes × ι)}
          {ds' : List (Bytes × (ι × δ))}, turn n defs turns = (e.isDefinition, turns') →
          todo = rs'.length + ds'.length →
          (addNamed part k e m >>= fun m => joinNamed part todo (n + 1) e.isDefinition turns' rs' ds' m) =
            .ok m' →
          ∃ (t : Token) (post : List (Token × Entity ι δ)), t.text = k ∧
            m'.entries = m.entries ++ (t, e) :: post ∧
            turns.map Int32.toInt = (turningPoints defs n (e :: post.map Prod.snd)).map Int.ofNat ∧
            referencesOf post = rs' ∧ definitionsOf post = ds' := by
        intro e k turns' rs' ds' taken size h
        obtain ⟨m₁, added, joined⟩ := bind_eq_ok.1 h
        obtain ⟨t, text, entries⟩ := entries_addNamed added
        obtain ⟨post, all, points, hr, hd⟩ := ih size joined
        exact ⟨t, post, text, by rw [all, entries, List.append_assoc]; rfl,
          points_of_turn taken points, hr, hd⟩
      rw [joinNamed.eq_def] at h
      dsimp only at h
      split at h
      · next k id d ds' taken =>
          obtain ⟨t, post, rfl, all, points, hr, hd⟩ := step (e := .definition id d) taken
            (by rw [List.length_cons] at size; omega) h
          exact ⟨_, all, points, hr, by rw [definitionsOf, hd]⟩
      · next k id rs' taken =>
          obtain ⟨t, post, rfl, all, points, hr, hd⟩ := step (e := .reference id) taken
            (by rw [List.length_cons] at size; omega) h
          exact ⟨_, all, points, by rw [referencesOf, hr], hd⟩
      · cases h
      · cases h

/-- Every entity is among the references and definitions. -/
theorem among_sides {es : List (Token × Entity ι δ)} :
    ∀ e ∈ es.map Prod.snd, Among (referencesOf es) (definitionsOf es) e := by
  intro e he
  obtain ⟨⟨t, e⟩, ht, rfl⟩ := List.mem_map.1 he
  cases e with
  | reference id => exact List.mem_map.2 ⟨(t.text, id), mem_referencesOf.2 ⟨t, rfl, ht⟩, rfl⟩
  | definition id d =>
      exact List.mem_map.2 ⟨(t.text, (id, d)), mem_definitionsOf.2 ⟨t, rfl, ht⟩, rfl⟩

/-! ### There and back -/

/-- The section holds the references and the definitions of the map. -/
structure Holds (s : PartitionSection ι δ) (m : TokenMap named (Entity ι δ)) : Prop where
  references : s.references.entries = referencesOf m.entries
  definitions : s.definitions.entries = definitionsOf m.entries

theorem Holds.reference {s : PartitionSection ι δ} {m : TokenMap named (Entity ι δ)} (h : s.Holds m)
    {e : Bytes × ι} (he : e ∈ s.references.entries) : .reference e.2 ∈ m.values := by
  rw [h.references] at he
  obtain ⟨t, -, ht⟩ := mem_referencesOf.1 he
  exact List.mem_map.2 ⟨_, ht, rfl⟩

theorem Holds.definition {s : PartitionSection ι δ} {m : TokenMap named (Entity ι δ)} (h : s.Holds m)
    {e : Bytes × (ι × δ)} (he : e ∈ s.definitions.entries) : .definition e.2.1 e.2.2 ∈ m.values := by
  rw [h.definitions] at he
  obtain ⟨t, -, ht⟩ := mem_definitionsOf.1 he
  exact List.mem_map.2 ⟨_, ht, rfl⟩

/-- Signed numbers of 32 bits hold the turning points of a map with named tokens. -/
def MapTurnsFit (m : TokenMap named (Entity ι δ)) : Prop :=
  named = true → TurnsFit false 0 m.values

theorem mapTurnsFit_of_size {m : TokenMap named (Entity ι δ)} (h : named = true → m.size ≤ 0x80000000) :
    MapTurnsFit m := by
  intro hn
  refine turnsFit_of_length false ?_
  have := h hn
  rwa [TokenMap.values, List.length_map, Nat.zero_add]

/-- A token map has a section, which holds its references and definitions and, if tokens are names, lists its turning points. -/
theorem ofMap_holds (m : TokenMap named (Entity ι δ)) :
    ∃ s : PartitionSection ι δ, (ofMap m : Except (Failure φ) _) = .ok s ∧ s.Holds m ∧
      s.turns = if named then turnsFrom false 0 m.values else [] := by
  have distinct := texts_nodup m.wellKeyed
  rw [List.map_map] at distinct
  obtain ⟨s, hs, hr, hd, hu⟩ := split_ofEntries m.entries
    { (empty : PartitionSection ι δ) with turns := if named then turnsFrom false 0 m.values else [] }
    distinct fun _ _ => ⟨List.not_mem_nil, List.not_mem_nil⟩
  exact ⟨s, hs, ⟨hr, hd⟩, hu⟩

theorem Holds.size {s : PartitionSection ι δ} {m : TokenMap named (Entity ι δ)} (h : s.Holds m) :
    s.size = m.size := by
  rw [PartitionSection.size, Keyed.size, Keyed.size, h.references, h.definitions]
  exact length_sides m.entries

/-- The map is given back by its section. -/
theorem ofMap_toMap (part : String) (m : TokenMap named (Entity ι δ)) (fit : MapTurnsFit m) :
    ∃ s : PartitionSection ι δ, (ofMap m : Except (Failure φ) _) = .ok s ∧ s.Holds m ∧
      s.toMap part = .ok m := by
  obtain ⟨s, hs, holds, hu⟩ := @ofMap_holds _ _ _ φ m
  refine ⟨s, hs, holds, ?_⟩
  cases named with
  | true =>
      obtain ⟨m', joined, all⟩ := @joinNamed_turnsFrom _ _ part m.entries false .empty m.wellKeyed
        (fit rfl)
      obtain rfl : m' = m := TokenMap.ext_entries all
      rw [toMap, if_pos rfl, holds.size, hu, holds.references, holds.definitions]
      exact joined
  | false =>
      have distinct := texts_nodup m.wellKeyed
      rw [List.map_map] at distinct
      obtain ⟨m', joined, all⟩ := @joinIndexed_split _ _ part s m.entries .empty m.wellKeyed
        fun e he => get?_of_mem distinct holds.references holds.definitions he
      obtain rfl : m' = m := TokenMap.ext_entries all
      rw [toMap, if_neg Bool.false_ne_true, holds.size]
      exact joined

/-- A named map that comes from a section holds what the section does, and turns where it says. -/
theorem of_toMap_named {part : String} {s : PartitionSection ι δ} {m : TokenMap true (Entity ι δ)}
    (h : s.toMap part = .ok m) :
    s.Holds m ∧ s.turns.map Int32.toInt = (turningPoints false 0 m.values).map Int.ofNat := by
  rw [toMap, if_pos rfl] at h
  obtain ⟨post, all, points, hr, hd⟩ := of_joinNamed s.size rfl h
  obtain rfl : m.entries = post := all
  exact ⟨⟨hr.symm, hd.symm⟩, points⟩

/-- An indexed map that comes from a section holds as many entities, each from under the text of its token. -/
theorem of_toMap_indexed {part : String} {s : PartitionSection ι δ} {m : TokenMap false (Entity ι δ)}
    (h : s.toMap part = .ok m) :
    m.size = s.size ∧ ∀ e ∈ m.entries, s.get? e.1.text = some e.2 := by
  rw [toMap, if_neg Bool.false_ne_true] at h
  obtain ⟨post, all, size, each⟩ := of_joinIndexed (m := .empty) s.size h
  obtain rfl : m.entries = post := all
  exact ⟨size, each⟩

/-- A map that comes from a section holds its entities, and turns where signed numbers of 32 bits say. -/
theorem of_toMap {part : String} {s : PartitionSection ι δ} {m : TokenMap named (Entity ι δ)}
    (h : s.toMap part = .ok m) :
    MapTurnsFit m ∧ ∀ e ∈ m.values, Among s.references.entries s.definitions.entries e := by
  cases named with
  | true =>
      obtain ⟨holds, points⟩ := of_toMap_named h
      rw [holds.references, holds.definitions]
      refine ⟨fun _ i hi => ?_, among_sides⟩
      obtain ⟨j, -, hj⟩ := List.mem_map.1 (points ▸ List.mem_map_of_mem (f := Int.ofNat) hi)
      have := j.toInt_lt
      rw [hj] at this
      exact Int.ofNat_lt.1 this
  | false =>
      refine ⟨fun hn => absurd hn Bool.false_ne_true, fun _ he => ?_⟩
      obtain ⟨e, hm, rfl⟩ := List.mem_map.1 he
      exact among_of_get? ((of_toMap_indexed h).2 e hm)

end PartitionSection

open PartitionSection (MapTurnsFit mapTurnsFit_of_size ofMap_holds ofMap_toMap of_toMap)

/-- Signed numbers of 32 bits hold the turning points of every map, if tokens are names. -/
structure Catalog.TurnsFit (c : Catalog) : Prop where
  types : MapTurnsFit c.types
  fields : MapTurnsFit c.fields
  methods : MapTurnsFit c.methods

namespace Partition

variable {φ : Type}

/-- A catalog has a partition, which holds what it holds. -/
theorem exists_ofCatalog (c : Catalog) :
    ∃ p, (ofCatalog c : Except (Failure φ) Partition) = .ok p ∧ p.options = c.options ∧
      p.types.Holds c.types ∧ p.fields.Holds c.fields ∧ p.methods.Holds c.methods := by
  obtain ⟨ts, ht, holdsTypes, -⟩ := @ofMap_holds _ _ _ φ c.types
  obtain ⟨fs, hf, holdsFields, -⟩ := @ofMap_holds _ _ _ φ c.fields
  obtain ⟨ms, hm, holdsMethods, -⟩ := @ofMap_holds _ _ _ φ c.methods
  refine ⟨⟨c.options, ts, fs, ms⟩, ?_, rfl, holdsTypes, holdsFields, holdsMethods⟩
  rw [ofCatalog, ht, hf, hm]
  rfl

/-- As long as its turning points are signed numbers of 32 bits, the partition gives it back. -/
theorem holds_ofCatalog {c : Catalog} (fit : c.TurnsFit) :
    ∃ p, (ofCatalog c : Except (Failure φ) Partition) = .ok p ∧ p.options = c.options ∧
      p.types.Holds c.types ∧ p.fields.Holds c.fields ∧ p.methods.Holds c.methods ∧
      p.toCatalog = .ok c := by
  obtain ⟨ts, ht, holdsTypes, backTypes⟩ := ofMap_toMap "Types" c.types fit.types
  obtain ⟨fs, hf, holdsFields, backFields⟩ := ofMap_toMap "Fields" c.fields fit.fields
  obtain ⟨ms, hm, holdsMethods, backMethods⟩ := ofMap_toMap "Methods" c.methods fit.methods
  refine ⟨⟨c.options, ts, fs, ms⟩, ?_, rfl, holdsTypes, holdsFields, holdsMethods, ?_⟩
  · rw [ofCatalog, ht, hf, hm]
    rfl
  · rw [toCatalog]
    dsimp only
    rw [backTypes, backFields, backMethods]
    rfl

/-- The same for a catalog with few enough entities. -/
theorem ofCatalog_toCatalog (c : Catalog)
    (types : c.options.namedTokens = true → c.types.size ≤ 0x80000000)
    (fields : c.options.namedTokens = true → c.fields.size ≤ 0x80000000)
    (methods : c.options.namedTokens = true → c.methods.size ≤ 0x80000000) :
    ∃ p, (ofCatalog c : Except (Failure φ) Partition) = .ok p ∧ p.options = c.options ∧
      p.types.Holds c.types ∧ p.fields.Holds c.fields ∧ p.methods.Holds c.methods ∧
      p.toCatalog = .ok c :=
  holds_ofCatalog ⟨mapTurnsFit_of_size types, mapTurnsFit_of_size fields, mapTurnsFit_of_size methods⟩

/-- A catalog that comes from a partition turns where signed numbers of 32 bits say, so no other catalog is given back. -/
theorem turnsFit_of_toCatalog {p : Partition} {c : Catalog} (h : p.toCatalog = .ok c) : c.TurnsFit := by
  obtain ⟨ts, ht, h⟩ := bind_eq_ok.1 h
  obtain ⟨fs, hf, h⟩ := bind_eq_ok.1 h
  obtain ⟨ms, hm, h⟩ := bind_eq_ok.1 h
  cases h
  exact ⟨(of_toMap ht).1, (of_toMap hf).1, (of_toMap hm).1⟩

/-- Taking any catalog apart succeeds and, as long as its turning points are signed numbers of 32 bits, putting the parts together gives the catalog: its options, and its tokens in their order with their entities. -/
theorem toCatalog_ofCatalog {φ : Type} (c : Catalog) (fit : c.TurnsFit) :
    ∃ p, (ofCatalog c : Except (Failure φ) Partition) = .ok p ∧ p.toCatalog = .ok c := by
  obtain ⟨p, taken, -, -, -, -, back⟩ := @holds_ofCatalog φ c fit
  exact ⟨p, taken, back⟩

/-- A catalog with named types that begins with a definition and turns twice more. -/
def alternating : Catalog :=
  let name (b : UInt8) (h : b ∉ reservedOctets) : Token :=
    .named ⟨[b], List.cons_ne_nil _ _, fun _ hc => List.mem_singleton.1 hc ▸ h⟩
  let identity (n : Bytes) : TypeIdentity := ⟨n, "Sample", none, none⟩
  ⟨⟨1⟩,
    ⟨[(name 0x43 (by decide), .definition (identity "C") { attributes := 1 }),
        (name 0x41 (by decide), .reference (identity "A")),
        (name 0x42 (by decide), .definition (identity "B") {})], by
      exact ⟨by decide, by decide⟩⟩,
    .empty, .empty⟩

theorem toCatalog_ofCatalog_alternating : alternating.types.size = 3 ∧
    ∃ p, (ofCatalog alternating : Except (Failure NameFault) Partition) = .ok p ∧
      p.types.turns.map Int32.toInt = [0, 1, 2] ∧ p.toCatalog = .ok alternating := by
  have fit : alternating.TurnsFit := by
    refine ⟨mapTurnsFit_of_size fun _ => ?_, mapTurnsFit_of_size fun _ => ?_, mapTurnsFit_of_size fun _ => ?_⟩
    all_goals decide
  obtain ⟨p, taken, back⟩ := @toCatalog_ofCatalog NameFault alternating fit
  refine ⟨rfl, p, taken, ?_, back⟩
  have turns : (ofCatalog alternating : Except (Failure NameFault) Partition).toOption.map
      (·.types.turns.map Int32.toInt) = some [0, 1, 2] := by rfl
  rw [taken] at turns
  exact Option.some.inj turns

/-! ### A turn that comes too late -/

/-- The token that is named by a number. -/
def numeral (i : Nat) : Token :=
  .named ⟨Bytes.decimal i, (Bytes.isDigits_decimal i).1, fun b hb hr => by
    have digit := (Bytes.isDigits_decimal i).2 b hb
    rw [not_isDigit_reserved b hr] at digit
    cases digit⟩

theorem numeral_injective : Function.Injective numeral := fun _ _ h =>
  Bytes.decimal_inj (congrArg Token.text h)

/-- References to one type, `n` of them, and its definition behind them. -/
def lateTypes (n : Nat) : TokenMap true TypeEntity where
  entries := (List.range n).map (fun i => (numeral i, .reference ⟨"T", "Sample", none, none⟩)) ++
    [(numeral n, .definition ⟨"T", "Sample", none, none⟩ {})]
  wellKeyed := by
    rw [List.map_append, List.map_map]
    refine ⟨fun k hk => ?_, ?_⟩
    · rcases List.mem_append.1 hk with hk | hk
      · obtain ⟨i, -, rfl⟩ := List.mem_map.1 hk
        rfl
      · cases List.mem_singleton.1 hk
        rfl
    · have keys : ((List.range n).map numeral ++ [numeral n]).Nodup := by
        rw [← List.map_singleton, ← List.map_append, ← List.range_succ]
        exact List.nodup_range.map numeral_injective
      exact keys

theorem values_lateTypes (n : Nat) : (lateTypes n).values =
    List.replicate n (.reference ⟨"T", "Sample", none, none⟩) ++
      [.definition ⟨"T", "Sample", none, none⟩ {}] := by
  rw [TokenMap.values, lateTypes, List.map_append, List.map_map]
  refine congrArg (· ++ _) ?_
  exact List.eq_replicate_iff.2 ⟨by simp, by simp⟩

/-- A catalog of such types. -/
def late (n : Nat) : Catalog := ⟨⟨1⟩, lateTypes n, .empty, .empty⟩

/-- It turns at the definition and nowhere else. -/
theorem turnsFit_late_iff {n : Nat} : (late n).TurnsFit ↔ n < 0x80000000 := by
  have points : PartitionSection.turningPoints false 0 (lateTypes n).values = [n] := by
    rw [values_lateTypes, PartitionSection.turningPoints_replicate, Nat.zero_add]
  refine ⟨fun fit => ?_, fun few => ⟨fun _ i hi => ?_, fun _ => nofun, fun _ => nofun⟩⟩
  · have named : Options.namedTokens ⟨1⟩ = true := by decide
    exact fit.types named n (points ▸ List.mem_singleton_self n)
  · have here : i ∈ [n] := points ▸ hi
    rwa [List.mem_singleton.1 here]

/-- The definition is where no signed number of 32 bits is, and the catalog is not given back. -/
theorem not_toCatalog_ofCatalog_late : ¬ ∃ p,
    (ofCatalog (late 0x80000000) : Except (Failure NameFault) Partition) = .ok p ∧
      p.toCatalog = .ok (late 0x80000000) := by
  rintro ⟨p, -, back⟩
  exact Nat.lt_irrefl _ (turnsFit_late_iff.1 (turnsFit_of_toCatalog back))

end Partition

end CilCatalog
