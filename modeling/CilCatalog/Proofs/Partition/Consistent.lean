import CilCatalog.Proofs.Partition
import Mathlib.Data.List.Perm.Subperm

/-!
# Which partitions are those of catalogs

A section under names is consistent if its keys are names that occur once and its turns, in order, use up exactly the references and the definitions; a section under indices if its keys are the indices, each once.

* `joinNamed_isOk_iff`: the runs between turns must fit the two sides.
* `numbers_iff`: as many keys as there are indices, none of which is missing, are the indices.
* `Partition.toCatalog_isOk_iff`: a partition has a catalog exactly if its sections are consistent, and it is the partition of that catalog, up to the order of entries and the turns where tokens are indices.  Indices are signed numbers of 32 bits, so there must not be more entities than these (`Partition.not_toCatalog_isOk_crowded`).
-/

namespace CilCatalog

namespace PartitionSection

variable {ι δ φ : Type}

/-! ### Consistency -/

/-- The kind of the entity at position `i`, which changes at every turn up to there; `defs` is the kind in front of all. -/
def kindAt (defs : Bool) (i : Nat) : List Int32 → Bool
  | []      => defs
  | n :: ns => kindAt (if n.toInt ≤ i then !defs else defs) i ns

/-- The keys are names, none on both sides, and the turns lie in order between the positions, which use up the references and the definitions there are. -/
structure Alternates (s : PartitionSection ι δ) : Prop where
  names : ∀ k ∈ s.references.keys ++ s.definitions.keys, k ≠ [] ∧ ∀ b ∈ k, b ∉ reservedOctets
  disjoint : s.references.keys.Disjoint s.definitions.keys
  increasing : s.turns.Pairwise fun m n => m.toInt < n.toInt
  within : ∀ n ∈ s.turns, 0 ≤ n.toInt ∧ n.toInt < s.size
  references : (List.range s.size).countP (fun i => !kindAt false i s.turns) = s.references.size
  definitions : (List.range s.size).countP (fun i => kindAt false i s.turns) = s.definitions.size

/-- No key is on both sides, and together the keys are the first indices in decimal. -/
structure Numbers (s : PartitionSection ι δ) : Prop where
  disjoint : s.references.keys.Disjoint s.definitions.keys
  keys : ∀ k, k ∈ s.references.keys ++ s.definitions.keys ↔ ∃ i < s.size, Bytes.decimal i = k

/-- What makes a section one of a token map with names or with indices. -/
def Consistent (named : Bool) (s : PartitionSection ι δ) : Prop :=
  if named then s.Alternates else s.Numbers

/-! ### Turns -/

/-- Turns that increase, none of them in front of position `n`. -/
structure Ahead (n : Nat) (turns : List Int32) : Prop where
  increasing : turns.Pairwise fun a b => a.toInt < b.toInt
  ahead : ∀ t ∈ turns, (n : Int) ≤ t.toInt

/-- Before its first turn a sequence keeps its kind. -/
theorem kindAt_of_lt {defs : Bool} {i : Nat} {turns : List Int32}
    (h : ∀ t ∈ turns, (i : Int) < t.toInt) : kindAt defs i turns = defs := by
  induction turns with
  | nil => rfl
  | cons t turns ih =>
      rw [kindAt, if_neg (Int.not_le.2 (h t List.mem_cons_self)),
        ih fun u hu => h u (List.mem_cons_of_mem t hu)]

/-- A turn says what kind comes next, and leaves the kinds of later entities as they were. -/
theorem kindAt_turn {n : Nat} {defs d : Bool} {turns turns' : List Int32} (h : Ahead n turns)
    (taken : turn n defs turns = (d, turns')) :
    kindAt defs n turns = d ∧ Ahead (n + 1) turns' ∧
      (∀ i, n < i → kindAt defs i turns = kindAt d i turns') ∧
      ∀ todo : Nat, (∀ t ∈ turns, t.toInt < n + (todo + 1 : Nat)) ↔
        ∀ t ∈ turns', t.toInt < (n + 1 : Nat) + todo := by
  cases turns with
  | nil =>
      obtain ⟨rfl, rfl⟩ := Prod.mk.inj taken
      exact ⟨rfl, ⟨.nil, nofun⟩, fun _ _ => rfl, fun _ => ⟨nofun, nofun⟩⟩
  | cons t turns =>
      obtain ⟨first, increasing⟩ := List.pairwise_cons.1 h.increasing
      have ht := h.ahead t List.mem_cons_self
      rw [turn] at taken
      -- the next turn is here, or it lies ahead
      split at taken
      · next here =>
          obtain ⟨rfl, rfl⟩ := Prod.mk.inj taken
          have later : ∀ u ∈ turns, (n : Int) < u.toInt := fun u hu => here ▸ first u hu
          refine ⟨?_, ⟨increasing, later⟩, fun i hi => ?_, fun todo => ?_⟩
          · rw [kindAt, if_pos (Int.le_of_eq here), kindAt_of_lt later]
          · rw [kindAt, if_pos (by omega)]
          · rw [List.forall_mem_cons]
            constructor
            · exact fun bound u hu => by have := bound.2 u hu; omega
            · exact fun bound => ⟨by omega, fun u hu => by have := bound u hu; omega⟩
      · next before =>
          obtain ⟨rfl, rfl⟩ := Prod.mk.inj taken
          have later : ∀ u ∈ t :: turns, (n : Int) < u.toInt := by
            refine List.forall_mem_cons.2 ⟨by omega, fun u hu => ?_⟩
            have := first u hu
            omega
          refine ⟨kindAt_of_lt later, ⟨h.increasing, later⟩, fun _ _ => rfl, fun todo => ?_⟩
          rw [Int.natCast_add, Int.natCast_add, Int.add_assoc, Int.add_comm ((1 : Nat) : Int)]

/-- How many definitions there are among the positions from `n` on. -/
theorem countP_kindAt {n : Nat} {defs d : Bool} {turns turns' : List Int32} (todo : Nat)
    (h : Ahead n turns) (taken : turn n defs turns = (d, turns')) :
    (List.range' n (todo + 1)).countP (fun i => kindAt defs i turns) =
      (List.range' (n + 1) todo).countP (fun i => kindAt d i turns') + d.toNat := by
  obtain ⟨here, -, later, -⟩ := kindAt_turn h taken
  have same : (List.range' (n + 1) todo).countP (fun i => kindAt defs i turns) =
      (List.range' (n + 1) todo).countP fun i => kindAt d i turns' :=
    List.countP_congr fun i hi => by rw [later i (List.mem_range'_1.1 hi).1]
  rw [List.range'_succ, List.countP_cons, here, same]
  cases d with
  | true => rfl
  | false => rfl

/-! ### Names -/

/-- The keys are names that are new to a map, and each of them occurs once. -/
structure Addable (m : TokenMap true (Entity ι δ)) (ks : List Bytes) : Prop where
  names : ∀ k ∈ ks, k ≠ [] ∧ ∀ b ∈ k, b ∉ reservedOctets
  nodup : (m.keys.map Token.text ++ ks).Nodup

/-- A key is added, and the others can still be. -/
theorem Addable.add (part : String) {m : TokenMap true (Entity ι δ)} (as : List Bytes)
    {bs : List Bytes} {k : Bytes} (h : Addable m (as ++ k :: bs)) (e : Entity ι δ) :
    ∃ m', addNamed part k e m = .ok m' ∧ Addable m' (as ++ bs) := by
  have hk : k ∈ as ++ k :: bs := List.mem_append_right as List.mem_cons_self
  obtain ⟨n, hn⟩ := TokenName.ofBytes_isOk_iff.2 (h.names k hk)
  have text : (Token.named n).text = k := TokenName.bytes_of_ofBytes hn
  have new : Token.named n ∉ m.keys := by
    intro hm
    have := (List.nodup_append.1 h.nodup).2.2 _ (List.mem_map_of_mem (f := Token.text) hm) k hk
    exact this text
  obtain ⟨m', added, entries⟩ := add_of_wellKeyed (t := .named n) e
    (wellKeyed_append_named m.wellKeyed new)
  refine ⟨m', ?_, ⟨fun x hx => h.names x ?_, ?_⟩⟩
  · rw [addNamed, Token.ofName, hn]
    simp only [Except.map, added]
  · rcases List.mem_append.1 hx with hx | hx
    · exact List.mem_append_left _ hx
    · exact List.mem_append_right as (List.mem_cons_of_mem k hx)
  · -- the key moves from those to be added to those of the map
    have keys : m'.keys = m.keys ++ [.named n] := by
      rw [TokenMap.keys, entries, List.map_append]; rfl
    rw [keys, List.map_append, List.map_singleton, text, List.append_assoc, List.singleton_append]
    exact (List.Perm.append_left _ List.perm_middle.symm).nodup_iff.2 h.nodup

theorem joinNamed_isOk_iff (part : String) (defs : Bool) (todo : Nat) {n : Nat}
    {turns : List Int32} {rs : List (Bytes × ι)} {ds : List (Bytes × (ι × δ))}
    {m : TokenMap true (Entity ι δ)}
    (size : todo = rs.length + ds.length) (ahead : Ahead n turns)
    (addable : Addable m (rs.map Prod.fst ++ ds.map Prod.fst)) :
    (∃ m', joinNamed part todo n defs turns rs ds m = .ok m') ↔
      (∀ t ∈ turns, t.toInt < n + todo) ∧
        (List.range' n todo).countP (fun i => kindAt defs i turns) = ds.length := by
  induction todo generalizing n defs turns rs ds m with
  | zero =>
      have hd : 0 = ds.length := by omega
      rw [joinNamed]
      constructor
      · rintro ⟨m', h⟩
        split at h
        · next hu =>
            rw [List.isEmpty_iff.1 hu]
            exact ⟨List.forall_mem_nil _, hd⟩
        · cases h
      · rintro ⟨bound, -⟩
        cases turns with
        | nil => exact ⟨m, rfl⟩
        | cons t turns =>
            have := bound t List.mem_cons_self
            have := ahead.ahead t List.mem_cons_self
            omega
  | succ todo ih =>
      obtain ⟨d, turns', taken⟩ : ∃ d turns', turn n defs turns = (d, turns') := ⟨_, _, rfl⟩
      obtain ⟨-, ahead', -, bound⟩ := kindAt_turn ahead taken
      rw [countP_kindAt todo ahead taken, bound todo, joinNamed.eq_def]
      dsimp only
      rw [taken]
      cases d with
      | true =>
          cases ds with
          | nil =>
              exact ⟨(by rintro ⟨_, h⟩; cases h), fun h => absurd h.2 (Nat.succ_ne_zero _)⟩
          | cons p ds =>
              obtain ⟨k, id, d⟩ := p
              obtain ⟨m₁, added, addable'⟩ := addable.add part _ (.definition id d)
              simp only [added, ok_bind]
              rw [ih _ (by rw [List.length_cons] at size; omega) ahead' addable']
              exact and_congr_right' (Nat.add_right_cancel_iff (n := 1)).symm
      | false =>
          cases rs with
          | nil =>
              refine ⟨(by rintro ⟨_, h⟩; cases h), fun h => ?_⟩
              -- without references all positions that are left must be of definitions
              have few := List.countP_le_length (p := fun i => kindAt false i turns')
                (l := List.range' (n + 1) todo)
              have all : List.countP _ _ = ds.length := h.2
              rw [all, List.length_range'] at few
              rw [List.length_nil] at size
              omega
          | cons p rs =>
              obtain ⟨k, id⟩ := p
              obtain ⟨m₁, added, addable'⟩ := addable.add part [] (.reference id)
              simp only [added, ok_bind]
              exact ih _ (by rw [List.length_cons] at size; omega) ahead' addable'

/-- Turning points increase. -/
theorem turningPoints_increasing {es : List (Entity ι δ)} {defs : Bool} {n : Nat} :
    (turningPoints defs n es).Pairwise (· < ·) := by
  induction es generalizing defs n with
  | nil => exact .nil
  | cons e es ih =>
      rw [turningPoints]
      by_cases he : e.isDefinition = defs
      · rw [if_pos he]
        exact ih
      · rw [if_neg he]
        exact .cons (fun i hi => (turningPoints_bounds i hi).1) ih

theorem ahead_of_points {es : List (Entity ι δ)} {turns : List Int32}
    (points : turns.map Int32.toInt = (turningPoints false 0 es).map Int.ofNat) : Ahead 0 turns := by
  refine ⟨List.pairwise_map.1 ?_, fun t ht => ?_⟩
  · rw [points]
    exact List.pairwise_map.2 (turningPoints_increasing.imp Int.ofNat_lt.2)
  · obtain ⟨i, -, hi⟩ := List.mem_map.1 (points ▸ List.mem_map_of_mem (f := Int32.toInt) ht)
    rw [← hi]
    exact Int.natCast_nonneg i

/-- Signed numbers are given by what they stand for. -/
theorem eq_turnsFrom_of_points {es : List (Entity ι δ)} {turns : List Int32}
    (points : turns.map Int32.toInt = (turningPoints false 0 es).map Int.ofNat) :
    turns = turnsFrom false 0 es := by
  have back := congrArg (List.map Int32.ofInt) points
  rw [List.map_map, List.map_map] at back
  rw [turnsFrom_eq_map]
  calc turns = turns.map (Int32.ofInt ∘ Int32.toInt) := by simp [Function.comp_def]
    _ = _ := back

/-! ### Sections under names -/

/-- The keys of a section are the texts of the tokens whose entities it holds. -/
theorem Holds.mem_keys {named : Bool} {s : PartitionSection ι δ} {m : TokenMap named (Entity ι δ)}
    (h : s.Holds m) {k : Bytes} (hk : k ∈ s.references.keys ++ s.definitions.keys) :
    ∃ t ∈ m.keys, t.text = k := by
  rcases List.mem_append.1 hk with hk | hk
  · rw [Keyed.keys, h.references] at hk
    obtain ⟨⟨_, id⟩, he, rfl⟩ := List.mem_map.1 hk
    obtain ⟨t, text, ht⟩ := mem_referencesOf.1 he
    exact ⟨t, List.mem_map.2 ⟨_, ht, rfl⟩, text⟩
  · rw [Keyed.keys, h.definitions] at hk
    obtain ⟨⟨_, p⟩, he, rfl⟩ := List.mem_map.1 hk
    obtain ⟨t, text, ht⟩ := mem_definitionsOf.1 he
    exact ⟨t, List.mem_map.2 ⟨_, ht, rfl⟩, text⟩

theorem Holds.disjoint {named : Bool} {s : PartitionSection ι δ} {m : TokenMap named (Entity ι δ)}
    (h : s.Holds m) : s.references.keys.Disjoint s.definitions.keys := by
  intro k hr hd
  rw [Keyed.keys, h.references] at hr
  rw [Keyed.keys, h.definitions] at hd
  obtain ⟨⟨_, id⟩, he, rfl⟩ := List.mem_map.1 hr
  obtain ⟨⟨_, p⟩, he', same⟩ := List.mem_map.1 hd
  obtain ⟨t, text, ht⟩ := mem_referencesOf.1 he
  obtain ⟨u, text', hu⟩ := mem_definitionsOf.1 he'
  have distinct := texts_nodup m.wellKeyed
  rw [List.map_map] at distinct
  cases congrArg Prod.snd
    (List.inj_on_of_nodup_map distinct ht hu (text.trans (same.symm.trans text'.symm)))

theorem nodup_keys {s : PartitionSection ι δ}
    (h : s.references.keys.Disjoint s.definitions.keys) :
    (s.references.keys ++ s.definitions.keys).Nodup :=
  List.nodup_append'.2 ⟨s.references.distinct, s.definitions.distinct, h⟩

theorem length_keys (s : PartitionSection ι δ) :
    (s.references.keys ++ s.definitions.keys).length = s.size := by
  rw [List.length_append, Keyed.keys, Keyed.keys, List.length_map, List.length_map]
  rfl

/-- Positions that are not of definitions are of references. -/
theorem countP_sides (s : PartitionSection ι δ) :
    (List.range s.size).countP (fun i => !kindAt false i s.turns) +
      (List.range s.size).countP (fun i => kindAt false i s.turns) = s.size := by
  have := List.length_eq_countP_add_countP (fun i => kindAt false i s.turns) (l := List.range s.size)
  rw [List.length_range] at this
  rw [Nat.add_comm]
  simpa using this.symm

/-- A section has a map with names exactly if it alternates between its sides. -/
theorem toMap_named_isOk_iff {part : String} {s : PartitionSection ι δ} :
    (∃ m : TokenMap true (Entity ι δ), s.toMap part = .ok m) ↔ s.Alternates := by
  have key : ∀ (ahead : Ahead 0 s.turns)
      (addable : Addable (.empty : TokenMap true (Entity ι δ))
        (s.references.keys ++ s.definitions.keys)),
      (∃ m : TokenMap true (Entity ι δ), s.toMap part = .ok m) ↔
        (∀ t ∈ s.turns, t.toInt < s.size) ∧
          (List.range s.size).countP (fun i => kindAt false i s.turns) = s.definitions.size := by
    intro ahead addable
    have := joinNamed_isOk_iff part false s.size rfl ahead addable
    rw [← List.range_eq_range', Int.natCast_zero, Int.zero_add] at this
    exact this
  constructor
  · rintro ⟨m, h⟩
    obtain ⟨holds, points⟩ := of_toMap_named h
    have ahead := ahead_of_points points
    have names : ∀ k ∈ s.references.keys ++ s.definitions.keys,
        k ≠ [] ∧ ∀ b ∈ k, b ∉ reservedOctets := by
      intro k hk
      obtain ⟨t, ht, rfl⟩ := holds.mem_keys hk
      cases t with
      | named n => exact ⟨n.ne_nil, n.not_reserved⟩
      | index i => exact nomatch m.wellKeyed.1 _ ht
    obtain ⟨below, count⟩ := (key ahead ⟨names, nodup_keys holds.disjoint⟩).1 ⟨m, h⟩
    refine ⟨names, holds.disjoint, ahead.increasing, fun t ht => ⟨ahead.ahead t ht, below t ht⟩, ?_,
      count⟩
    have both := countP_sides s
    rw [count, PartitionSection.size] at both
    exact Nat.add_right_cancel both
  · intro h
    exact (key ⟨h.increasing, fun t ht => (h.within t ht).1⟩ ⟨h.names, nodup_keys h.disjoint⟩).2
      ⟨fun t ht => (h.within t ht).2, h.definitions⟩

/-- A section is that of its map with names. -/
theorem ofMap_of_toMap {part : String} {s : PartitionSection ι δ} {m : TokenMap true (Entity ι δ)}
    (h : s.toMap part = .ok m) : (ofMap m : Except (Failure φ) _) = .ok s := by
  obtain ⟨holds, points⟩ := of_toMap_named h
  obtain ⟨s', hs, holds', turns⟩ := @ofMap_holds _ _ _ φ m
  obtain ⟨rs, ds, us⟩ := s
  obtain ⟨rs', ds', us'⟩ := s'
  obtain rfl : rs' = rs := Keyed.ext_entries (holds'.references.trans holds.references.symm)
  obtain rfl : ds' = ds := Keyed.ext_entries (holds'.definitions.trans holds.definitions.symm)
  obtain rfl : us' = us := turns.trans (eq_turnsFrom_of_points points).symm
  exact hs

/-! ### Sections under indices -/

theorem mem_keys_iff {α : Type} {m : Keyed α} {k : Bytes} : k ∈ m.keys ↔ ∃ a, m.get? k = some a := by
  constructor
  · intro h
    obtain ⟨⟨_, a⟩, ha, rfl⟩ := List.mem_map.1 h
    exact ⟨a, Keyed.get?_of_mem ha⟩
  · rintro ⟨a, ha⟩
    exact List.mem_map.2 ⟨_, Keyed.mem_of_get? ha, rfl⟩

/-- References come before definitions where an entity is looked up. -/
theorem get?_eq_reference_iff {s : PartitionSection ι δ} {k : Bytes} {id : ι} :
    s.get? k = some (.reference id) ↔ s.references.get? k = some id := by
  rw [get?]
  cases s.references.get? k with
  | some id' => exact ⟨fun h => by cases h; rfl, fun h => by cases h; rfl⟩
  | none =>
      refine ⟨fun h => ?_, fun h => by cases h⟩
      obtain ⟨p, -, hp⟩ := Option.map_eq_some_iff.1 h
      cases hp

theorem get?_eq_definition_iff {s : PartitionSection ι δ}
    (disjoint : s.references.keys.Disjoint s.definitions.keys) {k : Bytes} {p : ι × δ} :
    s.get? k = some (.definition p.1 p.2) ↔ s.definitions.get? k = some p := by
  rw [get?]
  cases hr : s.references.get? k with
  | some id =>
      refine ⟨fun h => (by cases h), fun hd => ?_⟩
      exact absurd (mem_keys_iff.2 ⟨p, hd⟩) (disjoint (mem_keys_iff.2 ⟨id, hr⟩))
  | none =>
      constructor
      · intro h
        obtain ⟨q, hq, he⟩ := Option.map_eq_some_iff.1 h
        obtain ⟨h₁, h₂⟩ := Entity.definition.inj he
        rw [hq, Prod.ext h₁ h₂]
      · intro h
        exact Option.map_eq_some_iff.2 ⟨p, h, rfl⟩

theorem exists_get?_iff {s : PartitionSection ι δ} {k : Bytes} :
    (∃ e, s.get? k = some e) ↔ k ∈ s.references.keys ++ s.definitions.keys := by
  rw [List.mem_append, mem_keys_iff, mem_keys_iff, get?]
  cases s.references.get? k with
  | some id => exact ⟨fun _ => .inl ⟨id, rfl⟩, fun _ => ⟨_, rfl⟩⟩
  | none =>
      constructor
      · rintro ⟨e, he⟩
        obtain ⟨p, hp, -⟩ := Option.map_eq_some_iff.1 he
        exact .inr ⟨p, hp⟩
      · rintro (⟨id, h⟩ | ⟨p, hp⟩)
        · cases h
        · exact ⟨_, Option.map_eq_some_iff.2 ⟨p, hp, rfl⟩⟩

/-- The first indices in decimal. -/
def numerals (n : Nat) : List Bytes := (List.range n).map Bytes.decimal

theorem mem_numerals {n : Nat} {k : Bytes} : k ∈ numerals n ↔ ∃ i < n, Bytes.decimal i = k := by
  rw [numerals, List.mem_map]
  exact exists_congr fun i => and_congr_left' List.mem_range

theorem nodup_numerals (n : Nat) : (numerals n).Nodup :=
  List.nodup_range.map fun _ _ => Bytes.decimal_inj

/-- Where an entity stands under every index, there is no room for another key: there are as many indices as keys. -/
theorem numbers_iff {s : PartitionSection ι δ} :
    s.Numbers ↔ ∀ i < s.size, ∃ e, s.get? (Bytes.decimal i) = some e := by
  constructor
  · intro h i hi
    exact exists_get?_iff.2 ((h.keys _).2 ⟨i, hi, rfl⟩)
  · intro h
    have all : numerals s.size ⊆ s.references.keys ++ s.definitions.keys := by
      intro k hk
      obtain ⟨i, hi, rfl⟩ := mem_numerals.1 hk
      exact exists_get?_iff.1 (h i hi)
    have perm := (List.subperm_of_subset (nodup_numerals s.size) all).perm_of_length_le
      (Nat.le_of_eq (by rw [length_keys, numerals, List.length_map, List.length_range]))
    refine ⟨(List.nodup_append'.1 (perm.nodup_iff.1 (nodup_numerals s.size))).2.2, fun k => ?_⟩
    rw [← perm.mem_iff, mem_numerals]

theorem joinIndexed_isOk_iff {part : String} {s : PartitionSection ι δ} (todo : Nat)
    {m : TokenMap false (Entity ι δ)} :
    (∃ m', joinIndexed part s todo m.size m = .ok m') ↔
      (∀ i, m.size ≤ i → i < m.size + todo → ∃ e, s.get? (Bytes.decimal i) = some e) ∧
        m.size + todo ≤ 0x80000000 := by
  induction todo generalizing m with
  | zero =>
      refine ⟨fun _ => ⟨fun i hl hu => ?_, size_le_of_indexed m⟩, fun _ => ⟨m, rfl⟩⟩
      exact absurd hu (Nat.not_lt.2 hl)
  | succ todo ih =>
      rw [joinIndexed]
      cases found : s.get? (Bytes.decimal m.size) with
      | none =>
          refine ⟨(by rintro ⟨_, h⟩; cases h), fun h => ?_⟩
          obtain ⟨e, he⟩ := h.1 m.size (Nat.le_refl _) (by omega)
          cases found.symm.trans he
      | some e =>
          -- an index is added as long as a signed number of 32 bits holds it
          have here : (∃ m', m.add (.index (Int32.ofNat m.size)) e = .ok m') ↔ m.size < 0x80000000 := by
            constructor
            · rintro ⟨m', added⟩
              have := size_le_of_indexed m'
              rw [TokenMap.size, TokenMap.entries_add added, List.length_append] at this
              exact this
            · intro lt
              have place : (Int32.ofNat m.size).toInt = m.keys.length := by
                rw [Int32.toInt_ofNat_of_lt lt, TokenMap.keys, List.length_map, TokenMap.size]
              obtain ⟨m', added, -⟩ := add_of_wellKeyed e (wellKeyed_append_index m.wellKeyed place)
              exact ⟨m', added⟩
          cases added : m.add (.index (Int32.ofNat m.size)) e with
          | error f =>
              simp only [added]
              refine ⟨(by rintro ⟨_, h⟩; cases h), fun h => ?_⟩
              obtain ⟨m', hm⟩ := here.2 (by have := h.2; omega)
              cases added.symm.trans hm
          | ok m₁ =>
              have grown : m₁.size = m.size + 1 := by
                rw [TokenMap.size, TokenMap.entries_add added, List.length_append]; rfl
              simp only [added]
              rw [← grown, ih, grown]
              refine and_congr ⟨fun h i hl hu => ?_, fun h i hl hu => ?_⟩ (by omega)
              · rcases Nat.eq_or_lt_of_le hl with rfl | hl
                · exact ⟨e, found⟩
                · exact h i hl (by omega)
              · exact h i (by omega) (by omega)

/-- A section has a map with indices exactly if its keys are the indices, as far as these go. -/
theorem toMap_indexed_isOk_iff {part : String} {s : PartitionSection ι δ} :
    (∃ m : TokenMap false (Entity ι δ), s.toMap part = .ok m) ↔
      s.Numbers ∧ s.size ≤ 0x80000000 := by
  have := @joinIndexed_isOk_iff _ _ part s s.size .empty
  rw [show (TokenMap.empty : TokenMap false (Entity ι δ)).size = 0 from rfl, Nat.zero_add] at this
  rw [numbers_iff]
  refine this.trans (and_congr_left' ⟨fun h i hi => h i (Nat.zero_le i) hi, fun h i _ hi => h i hi⟩)

/-- The same entities under the same keys, in the order of the indices and without turns. -/
structure Sorts (s s' : PartitionSection ι δ) : Prop where
  references : ∀ k, s'.references.get? k = s.references.get? k
  definitions : ∀ k, s'.definitions.get? k = s.definitions.get? k
  referenceOrder : s'.references.keys = (numerals s.size).filter (· ∈ s.references.keys)
  definitionOrder : s'.definitions.keys = (numerals s.size).filter (· ∈ s.definitions.keys)
  turns : s'.turns = []

/-- The references among entries, told by their texts. -/
theorem keys_referencesOf {es : List (Token × Entity ι δ)} {p : Bytes → Bool}
    (h : ∀ e ∈ es, p e.1.text = !e.2.isDefinition) :
    (referencesOf es).map Prod.fst = (es.map fun e => e.1.text).filter p := by
  induction es with
  | nil => rfl
  | cons e es ih =>
      obtain ⟨t, e⟩ := e
      have here := h _ List.mem_cons_self
      have later := ih fun e' he => h e' (List.mem_cons_of_mem _ he)
      cases e with
      | reference id => rw [List.map_cons, List.filter_cons_of_pos here, referencesOf, List.map_cons, later]
      | definition id d => rw [List.map_cons, List.filter_cons_of_neg (by rw [here]; exact Bool.false_ne_true), referencesOf, later]

theorem keys_definitionsOf {es : List (Token × Entity ι δ)} {p : Bytes → Bool}
    (h : ∀ e ∈ es, p e.1.text = e.2.isDefinition) :
    (definitionsOf es).map Prod.fst = (es.map fun e => e.1.text).filter p := by
  induction es with
  | nil => rfl
  | cons e es ih =>
      obtain ⟨t, e⟩ := e
      have here := h _ List.mem_cons_self
      have later := ih fun e' he => h e' (List.mem_cons_of_mem _ he)
      cases e with
      | reference id => rw [List.map_cons, List.filter_cons_of_neg (by rw [here]; exact Bool.false_ne_true), definitionsOf, later]
      | definition id d => rw [List.map_cons, List.filter_cons_of_pos here, definitionsOf, List.map_cons, later]

/-- The texts of the tokens of an indexed map. -/
theorem texts_of_indexed {α : Type} (m : TokenMap false α) :
    m.entries.map (fun e => e.1.text) = numerals m.size := by
  have keys := congrArg (List.map Token.text) m.wellKeyed.2
  rw [List.map_map, List.map_map, List.length_map] at keys
  refine keys.trans (List.map_congr_left fun i hi => text_index ?_)
  exact Nat.lt_of_lt_of_le (List.mem_range.1 hi) (size_le_of_indexed m)

/-- What is found under a text among entries is the entity of that text's token. -/
theorem sorts_of_toMap {part : String} {s : PartitionSection ι δ} {m : TokenMap false (Entity ι δ)}
    (h : s.toMap part = .ok m) :
    ∃ s', (ofMap m : Except (Failure φ) _) = .ok s' ∧ s.Sorts s' := by
  obtain ⟨numbers, -⟩ := toMap_indexed_isOk_iff.1 ⟨m, h⟩
  obtain ⟨size, each⟩ := of_toMap_indexed h
  obtain ⟨s', hs, holds, turns⟩ := @ofMap_holds _ _ _ φ m
  have texts := texts_of_indexed m
  rw [size] at texts
  -- the keys are the texts, so there is an entry for each of them
  have entry : ∀ k ∈ s.references.keys ++ s.definitions.keys, ∃ e ∈ m.entries, e.1.text = k := by
    intro k hk
    have := mem_numerals.2 ((numbers.keys k).1 hk)
    rwa [← texts, List.mem_map] at this
  have reference : ∀ {k : Bytes} {id : ι},
      s'.references.get? k = some id ↔ s.references.get? k = some id := by
    intro k id
    rw [← get?_eq_reference_iff (s := s)]
    constructor
    · intro h
      have := Keyed.mem_of_get? h
      rw [holds.references] at this
      obtain ⟨t, rfl, ht⟩ := mem_referencesOf.1 this
      exact each _ ht
    · intro h
      obtain ⟨⟨t, e⟩, ht, rfl⟩ := entry k (exists_get?_iff.1 ⟨_, h⟩)
      cases (each _ ht).symm.trans h
      refine Keyed.get?_of_mem ?_
      rw [holds.references]
      exact mem_referencesOf.2 ⟨t, rfl, ht⟩
  have definition : ∀ {k : Bytes} {p : ι × δ},
      s'.definitions.get? k = some p ↔ s.definitions.get? k = some p := by
    intro k p
    rw [← get?_eq_definition_iff numbers.disjoint]
    constructor
    · intro h
      have := Keyed.mem_of_get? h
      rw [holds.definitions] at this
      obtain ⟨t, rfl, ht⟩ := mem_definitionsOf.1 this
      exact each _ ht
    · intro h
      obtain ⟨⟨t, e⟩, ht, rfl⟩ := entry k (exists_get?_iff.1 ⟨_, h⟩)
      cases (each _ ht).symm.trans h
      refine Keyed.get?_of_mem ?_
      rw [holds.definitions]
      exact mem_definitionsOf.2 ⟨t, rfl, ht⟩
  have side : ∀ e ∈ m.entries, decide (e.1.text ∈ s.references.keys) = !e.2.isDefinition ∧
      decide (e.1.text ∈ s.definitions.keys) = e.2.isDefinition := by
    rintro ⟨t, e⟩ he
    have found := each _ he
    cases e with
    | reference id =>
        have hr := mem_keys_iff.2 ⟨id, get?_eq_reference_iff.1 found⟩
        exact ⟨decide_eq_true hr, decide_eq_false (numbers.disjoint hr)⟩
    | definition id d =>
        have hd := mem_keys_iff.2
          ⟨(id, d), (get?_eq_definition_iff numbers.disjoint (p := (id, d))).1 found⟩
        exact ⟨decide_eq_false fun hr => numbers.disjoint hr hd, decide_eq_true hd⟩
  refine ⟨s', hs, fun k => Option.ext fun id => reference, fun k => Option.ext fun p => definition,
    ?_, ?_, turns⟩
  · rw [Keyed.keys, holds.references, ← texts]
    exact keys_referencesOf fun e he => (side e he).1
  · rw [Keyed.keys, holds.definitions, ← texts]
    exact keys_definitionsOf fun e he => (side e he).2

/-! ### Sections of either flavour -/

theorem toMap_isOk_iff (part : String) {named : Bool} {s : PartitionSection ι δ} :
    (∃ m : TokenMap named (Entity ι δ), s.toMap part = .ok m) ↔
      s.Consistent named ∧ (named = false → s.size ≤ 0x80000000) := by
  cases named with
  | true => exact toMap_named_isOk_iff.trans (and_iff_left nofun).symm
  | false => exact toMap_indexed_isOk_iff.trans (and_congr_right' (imp_iff_right rfl).symm)

/-- The section of a map that comes from a section: the same, if tokens are names. -/
def ComesBack (named : Bool) (s s' : PartitionSection ι δ) : Prop :=
  if named then s' = s else s.Sorts s'

theorem comesBack_of_toMap {part : String} {named : Bool} {s : PartitionSection ι δ}
    {m : TokenMap named (Entity ι δ)} (h : s.toMap part = .ok m) :
    ∃ s', (ofMap m : Except (Failure φ) _) = .ok s' ∧ s.ComesBack named s' := by
  cases named with
  | true => exact ⟨s, ofMap_of_toMap h, rfl⟩
  | false => exact sorts_of_toMap h

end PartitionSection

open PartitionSection (toMap_isOk_iff comesBack_of_toMap)

namespace Partition

variable {φ : Type}

/-- Every section is one of a token map of the partition's flavour. -/
structure Consistent (p : Partition) : Prop where
  types : p.types.Consistent p.options.namedTokens
  fields : p.fields.Consistent p.options.namedTokens
  methods : p.methods.Consistent p.options.namedTokens

/-- Where tokens are indices, signed numbers of 32 bits suffice for them. -/
structure Indexable (p : Partition) : Prop where
  types : p.options.namedTokens = false → p.types.size ≤ 0x80000000
  fields : p.options.namedTokens = false → p.fields.size ≤ 0x80000000
  methods : p.options.namedTokens = false → p.methods.size ≤ 0x80000000

theorem toCatalog_eq_ok {p : Partition} {c : Catalog} (h : p.toCatalog = .ok c) :
    c.options = p.options ∧ ∃ (ts : TokenMap p.options.namedTokens TypeEntity)
      (fs : TokenMap p.options.namedTokens FieldEntity)
      (ms : TokenMap p.options.namedTokens MethodEntity),
      p.types.toMap "Types" = .ok ts ∧ p.fields.toMap "Fields" = .ok fs ∧
        p.methods.toMap "Methods" = .ok ms ∧ c = ⟨p.options, ts, fs, ms⟩ := by
  obtain ⟨ts, ht, h⟩ := bind_eq_ok.1 h
  obtain ⟨fs, hf, h⟩ := bind_eq_ok.1 h
  obtain ⟨ms, hm, h⟩ := bind_eq_ok.1 h
  cases h
  exact ⟨rfl, ts, fs, ms, ht, hf, hm, rfl⟩

theorem toCatalog_of_toMap {p : Partition} {ts : TokenMap p.options.namedTokens TypeEntity}
    {fs : TokenMap p.options.namedTokens FieldEntity}
    {ms : TokenMap p.options.namedTokens MethodEntity} (ht : p.types.toMap "Types" = .ok ts)
    (hf : p.fields.toMap "Fields" = .ok fs) (hm : p.methods.toMap "Methods" = .ok ms) :
    p.toCatalog = .ok ⟨p.options, ts, fs, ms⟩ :=
  bind_eq_ok.2 ⟨ts, ht, bind_eq_ok.2 ⟨fs, hf, bind_eq_ok.2 ⟨ms, hm, rfl⟩⟩⟩

/-- The partition of a catalog that comes from a partition: the same, if tokens are names, and else with entries in the order of their indices. -/
def ComesBack (p q : Partition) : Prop :=
  if p.options.namedTokens then q = p
  else q.options = p.options ∧ p.types.Sorts q.types ∧ p.fields.Sorts q.fields ∧
    p.methods.Sorts q.methods

theorem comesBack_of_sections {p q : Partition} (options : q.options = p.options)
    (types : p.types.ComesBack p.options.namedTokens q.types)
    (fields : p.fields.ComesBack p.options.namedTokens q.fields)
    (methods : p.methods.ComesBack p.options.namedTokens q.methods) : p.ComesBack q := by
  obtain ⟨o, ts, fs, ms⟩ := q
  cases options
  rw [PartitionSection.ComesBack] at types fields methods
  rw [ComesBack]
  split
  · next named =>
      rw [if_pos named] at types fields methods
      cases types
      cases fields
      cases methods
      rfl
  · next indexed =>
      rw [if_neg indexed] at types fields methods
      exact ⟨rfl, types, fields, methods⟩

/-- Exactly the consistent partitions are those of catalogs, as far as there are indices, and each is the partition of its catalog. -/
theorem toCatalog_isOk_iff (p : Partition) :
    ((∃ c, p.toCatalog = .ok c) ↔ p.Consistent ∧ p.Indexable) ∧
      ∀ c, p.toCatalog = .ok c →
        ∃ q, (ofCatalog c : Except (Failure φ) Partition) = .ok q ∧ p.ComesBack q := by
  refine ⟨⟨?_, ?_⟩, ?_⟩
  · rintro ⟨c, h⟩
    obtain ⟨-, ts, fs, ms, ht, hf, hm, -⟩ := toCatalog_eq_ok h
    obtain ⟨types, fewTypes⟩ := (toMap_isOk_iff _).1 ⟨ts, ht⟩
    obtain ⟨fields, fewFields⟩ := (toMap_isOk_iff _).1 ⟨fs, hf⟩
    obtain ⟨methods, fewMethods⟩ := (toMap_isOk_iff _).1 ⟨ms, hm⟩
    exact ⟨⟨types, fields, methods⟩, ⟨fewTypes, fewFields, fewMethods⟩⟩
  · rintro ⟨consistent, few⟩
    obtain ⟨ts, ht⟩ := (toMap_isOk_iff "Types").2 ⟨consistent.types, few.types⟩
    obtain ⟨fs, hf⟩ := (toMap_isOk_iff "Fields").2 ⟨consistent.fields, few.fields⟩
    obtain ⟨ms, hm⟩ := (toMap_isOk_iff "Methods").2 ⟨consistent.methods, few.methods⟩
    exact ⟨_, toCatalog_of_toMap ht hf hm⟩
  · intro c h
    obtain ⟨-, ts, fs, ms, ht, hf, hm, rfl⟩ := toCatalog_eq_ok h
    obtain ⟨ts', ht', types⟩ := @comesBack_of_toMap _ _ φ _ _ _ _ ht
    obtain ⟨fs', hf', fields⟩ := @comesBack_of_toMap _ _ φ _ _ _ _ hf
    obtain ⟨ms', hm', methods⟩ := @comesBack_of_toMap _ _ φ _ _ _ _ hm
    exact ⟨⟨p.options, ts', fs', ms'⟩,
      bind_eq_ok.2 ⟨ts', ht', bind_eq_ok.2 ⟨fs', hf', bind_eq_ok.2 ⟨ms', hm', rfl⟩⟩⟩,
      comesBack_of_sections rfl types fields methods⟩

/-- Types under indices, given out of order and with a turn that says nothing. -/
def untidy : Partition :=
  let identity (n : Bytes) : TypeIdentity := ⟨n, "Sample", none, none⟩
  ⟨⟨0⟩,
    ⟨⟨[("2", identity "C"), ("0", identity "A")], by decide⟩,
      ⟨[("1", (identity "B", {}))], by decide⟩, [7]⟩,
    .empty, .empty⟩

theorem toCatalog_isOk_iff_untidy : untidy.Consistent ∧
    ∃ c q, untidy.toCatalog = .ok c ∧ (ofCatalog c : Except (Failure NameFault) Partition) = .ok q ∧
      q.types.references.keys = ["0", "2"] ∧ q.types.turns = [] := by
  obtain ⟨c, hc⟩ : ∃ c, untidy.toCatalog = .ok c := ⟨_, rfl⟩
  obtain ⟨isOk, back⟩ := @toCatalog_isOk_iff NameFault untidy
  obtain ⟨q, hq, comes⟩ := back c hc
  have sorts : untidy.types.Sorts q.types := comes.2.1
  refine ⟨(isOk.1 ⟨c, hc⟩).1, c, q, hc, hq, ?_, sorts.turns⟩
  rw [sorts.referenceOrder]
  rfl

/-! ### More entities than indices -/

open PartitionSection (numerals nodup_numerals mem_numerals numbers_iff)

/-- A reference to the same type under each of the first `n` indices. -/
def crowdedTypes (n : Nat) : PartitionSection TypeIdentity TypeData where
  references := ⟨(numerals n).map fun k => (k, ⟨"T", "Sample", none, none⟩), by
    rw [List.map_map]
    exact (List.map_id _).symm ▸ nodup_numerals n⟩
  definitions := .empty
  turns := []

/-- Nothing but those references. -/
def crowded (n : Nat) : Partition := ⟨⟨0⟩, crowdedTypes n, .empty, .empty⟩

theorem size_crowdedTypes (n : Nat) : (crowdedTypes n).size = n := by
  simp [PartitionSection.size, Keyed.size, crowdedTypes, numerals, Keyed.empty]

theorem crowdedTypes_numbers (n : Nat) : (crowdedTypes n).Numbers where
  disjoint := List.disjoint_nil_right _
  keys k := by
    rw [size_crowdedTypes, ← mem_numerals]
    simp [crowdedTypes, Keyed.keys, Keyed.empty]

theorem numbers_empty {ι δ : Type} : (PartitionSection.empty : PartitionSection ι δ).Numbers :=
  numbers_iff.2 fun _ hi => absurd hi (Nat.not_lt_zero _)

theorem crowded_consistent (n : Nat) : (crowded n).Consistent := by
  have indexed : (crowded n).options.namedTokens = false :=
    (by decide : Options.namedTokens ⟨0⟩ = false)
  constructor <;> rw [indexed]
  · exact crowdedTypes_numbers n
  · exact numbers_empty
  · exact numbers_empty

/-- One entity more than there are indices: the partition is consistent, but no catalog comes from it. -/
theorem not_toCatalog_isOk_crowded : ¬ ((∃ c, (crowded 0x80000001).toCatalog = .ok c) ↔
    (crowded 0x80000001).Consistent) := by
  intro isOk
  obtain ⟨c, h⟩ := isOk.2 (crowded_consistent _)
  obtain ⟨-, ts, -, -, ht, -, -, -⟩ := toCatalog_eq_ok h
  have few : (crowdedTypes 0x80000001).size ≤ 0x80000000 := ((toMap_isOk_iff _).1 ⟨ts, ht⟩).2 (by decide)
  rw [size_crowdedTypes] at few
  omega

end Partition

end CilCatalog
