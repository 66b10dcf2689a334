import CilCatalog.Proofs.Outcome
import CilCatalog.Proofs.Writing.Contracts
import CilCatalog.Reading.Reference

/-!
# Arguments that have been read

The integers that a reader puts into signature trees, its lengths and flags included, are read back by a writer as what they have been put there for, if the writer takes them at all.
-/

namespace CilCatalog

open Live Reading Writing

variable {node : String} {i : Nat}

/-! ### Integers -/

theorem eq_of_unsignedOf {n v : UInt32} (h : unsignedOf node i (.int32 n.toInt32) = .ok v) :
    v = n := by
  unfold unsignedOf at h
  obtain ⟨k, hk, h⟩ := bind_eq_ok.1 h
  cases hk
  split at h
  · exact nomatch h
  · cases h
    exact UInt32.toUInt32_toInt32 n

theorem toNat_lt_of_nonneg {n : Int32} (h : ¬ n < 0) : n.toUInt32.toNat < 0x80000000 := by
  rw [Int32.lt_iff_toInt_lt, Int32.toInt_zero, Int.not_lt, Int32.toInt, BitVec.toInt_eq_toNat_bmod] at h
  change 0 ≤ (n.toUInt32.toNat : Int).bmod (2 ^ 32) at h
  have := n.toUInt32.toNat_lt
  rw [Int.bmod_def] at h
  split at h <;> omega

theorem lt_of_unsignedOf {a : SigTree} {v : UInt32} (h : unsignedOf node i a = .ok v) :
    v.toNat < 0x80000000 := by
  unfold unsignedOf at h
  obtain ⟨k, -, h⟩ := bind_eq_ok.1 h
  split at h
  · exact nomatch h
  · next hneg =>
      cases h
      exact toNat_lt_of_nonneg hneg

theorem length_of_unsignedOf {α : Type} {as : List α} {v : UInt32}
    (h : unsignedOf node i (lengthTree as) = .ok v) : v.toNat = as.length % 0x100000000 := by
  unfold unsignedOf at h
  obtain ⟨k, hk, h⟩ := bind_eq_ok.1 h
  cases hk
  split at h
  · exact nomatch h
  · cases h
    rfl

/-! ### Dimensions of an array -/

/-- As many integers are read as are asked for, and they must be there. -/
theorem length_of_runBy {α : Type} {read : String → Nat → SigTree → Except (Failure ArgumentFault) α}
    {n : Nat} {as rest : List SigTree} {vs : List α} (h : runBy read node i n as = .ok (vs, rest)) :
    as.length = n + rest.length := by
  induction n generalizing i as vs with
  | zero =>
      cases h
      exact (Nat.zero_add _).symm
  | succ n ih =>
      cases as with
      | nil => exact nomatch h
      | cons a as =>
          obtain ⟨v, -, h⟩ := bind_eq_ok.1 h
          obtain ⟨⟨vs', rest'⟩, hr, h⟩ := bind_eq_ok.1 h
          cases h
          rw [List.length_cons, ih hr]
          omega

/-- What has been made of a list, is read as the list. -/
theorem eq_of_runBy {α : Type} {read : String → Nat → SigTree → Except (Failure ArgumentFault) α}
    {tree : α → SigTree} (hread : ∀ {i a v}, read node i (tree a) = .ok v → v = a) {n : Nat}
    {as : List α} {tail rest : List SigTree} {vs : List α} (hn : n ≤ as.length)
    (h : runBy read node i n (as.map tree ++ tail) = .ok (vs, rest)) :
    vs = as.take n ∧ rest = (as.drop n).map tree ++ tail := by
  induction n generalizing i as vs with
  | zero =>
      cases h
      exact ⟨rfl, rfl⟩
  | succ n ih =>
      cases as with
      | nil => exact absurd hn (Nat.not_succ_le_zero n)
      | cons a as =>
          obtain ⟨v, hv, h⟩ := bind_eq_ok.1 h
          obtain ⟨⟨vs', rest'⟩, hr, h⟩ := bind_eq_ok.1 h
          cases h
          obtain ⟨rfl, hrest⟩ := ih (Nat.le_of_succ_le_succ hn) hr
          rw [hread hv]
          exact ⟨rfl, hrest⟩

theorem eq_of_integerOf {n v : Int32} (h : integerOf node i (.int32 n) = .ok v) : v = n := by
  cases h
  rfl

/-- The dimensions of an array are read as they have been put down, if at all. -/
theorem eq_of_ofArguments {rank : UInt32} {sizes : List UInt32} {lowerBounds : List Int32}
    {shape : ArrayShape}
    (h : ArrayShape.ofArguments (.int32 rank.toInt32 ::
      (lengthTree sizes :: sizes.map fun n => .int32 n.toInt32) ++
        (lengthTree lowerBounds :: lowerBounds.map .int32)) = .ok shape) :
    shape = ⟨rank, sizes, lowerBounds⟩ := by
  unfold ArrayShape.ofArguments at h
  obtain ⟨⟨rank', rest⟩, hrank, h⟩ := bind_eq_ok.1 h
  obtain ⟨r, hr, hrank⟩ := bind_eq_ok.1 hrank
  cases hrank
  obtain rfl := eq_of_unsignedOf hr
  obtain ⟨⟨m, rest⟩, hm, h⟩ := bind_eq_ok.1 h
  obtain ⟨m', hm', hm⟩ := bind_eq_ok.1 hm
  cases hm
  have hlength := length_of_unsignedOf hm'
  obtain ⟨⟨sizes', rest⟩, hsizes, h⟩ := bind_eq_ok.1 h
  obtain ⟨rfl, rfl⟩ := eq_of_runBy (fun h => eq_of_unsignedOf h)
    (hlength ▸ Nat.mod_le _ _) hsizes
  obtain ⟨⟨n, rest⟩, hn, h⟩ := bind_eq_ok.1 h
  obtain ⟨⟨lowerBounds', rest'⟩, hlower, h⟩ := bind_eq_ok.1 h
  dsimp only at h
  by_cases hempty : rest'.isEmpty = true
  · rw [if_pos hempty] at h
    obtain rfl := List.isEmpty_iff.1 hempty
    cases h
    have hcount := length_of_runBy hlower
    cases hdrop : sizes.drop m.toNat with
    | nil =>
        -- all sizes have been read, and the lower bounds are next
        rw [hdrop] at hn
        obtain ⟨n', hn', hn⟩ := bind_eq_ok.1 hn
        cases hn
        have hlast := length_of_unsignedOf hn'
        have hle : n.toNat ≤ lowerBounds.length := hlast ▸ Nat.mod_le _ _
        have happend : lowerBounds.map SigTree.int32 = lowerBounds.map .int32 ++ [] :=
          (List.append_nil _).symm
        rw [happend] at hlower
        obtain ⟨rfl, hrest⟩ := eq_of_runBy (fun h => eq_of_integerOf h) hle hlower
        rw [List.append_nil] at hrest
        have hall : lowerBounds.drop n.toNat = [] := List.map_eq_nil_iff.1 hrest.symm
        rw [List.take_of_length_le (List.drop_eq_nil_iff.1 hdrop),
          List.take_of_length_le (List.drop_eq_nil_iff.1 hall)]
    | cons x xs =>
        -- more sizes than can be counted: what follows is too long for any number
        rw [hdrop] at hn
        obtain ⟨n', hn', hn⟩ := bind_eq_ok.1 hn
        cases hn
        have hsmall := lt_of_unsignedOf hn'
        have hlen := congrArg List.length hdrop
        have hcount : (xs.map (fun n => SigTree.int32 n.toInt32) ++
            lengthTree lowerBounds :: lowerBounds.map .int32).length = n.toNat + 0 := hcount
        simp only [List.length_drop, List.length_cons, List.length_append, List.length_map]
          at hlen hcount
        have := Nat.div_add_mod sizes.length (2 ^ 32)
        omega
  · rw [if_neg hempty] at h
    exact nomatch h

/-! ### Arguments that are taken -/

theorem eq_of_checkCount {due found : Nat} {u : Unit} (h : checkCount node due found = .ok u) :
    due = found := by
  unfold checkCount at h
  split at h
  · next heq => exact heq
  · exact nomatch h

theorem tree_of_integerOf {a : SigTree} {v : Int32} (h : integerOf node i a = .ok v) :
    a = .int32 v := by
  rw [integerOf_eq] at h
  split at h
  · next n hn =>
      cases h
      cases a <;> cases hn
      rfl
  · exact nomatch h

theorem tree_of_unsignedOf {a : SigTree} {v : UInt32} (h : unsignedOf node i a = .ok v) :
    a = .int32 v.toInt32 := by
  unfold unsignedOf at h
  obtain ⟨k, hk, h⟩ := bind_eq_ok.1 h
  split at h
  · exact nomatch h
  · cases h
    exact tree_of_integerOf hk

/-- An integer that is read as a number states it. -/
theorem int32_of_unsignedOf {a : SigTree} {v : UInt32} (h : unsignedOf node i a = .ok v) :
    ∃ n : Int32, a = .int32 n ∧ n.toInt = v.toNat := by
  have hsmall := lt_of_unsignedOf h
  refine ⟨v.toInt32, tree_of_unsignedOf h, ?_⟩
  rw [Int32.toInt, BitVec.toInt_eq_toNat_of_lt]
  · rfl
  · change 2 * v.toNat < 2 ^ 32
    omega

/-- A number of things that are there is their length. -/
theorem lengthTree_of_unsignedOf {α : Type} {as : List α} {a : SigTree} {v : UInt32}
    (h : unsignedOf node i a = .ok v) (hlength : v.toNat = as.length) : a = lengthTree as := by
  rw [tree_of_unsignedOf h, lengthTree, ← hlength]
  refine congrArg SigTree.int32 (Int32.toBitVec_inj.1 ?_)
  change v.toBitVec = BitVec.ofNat 32 v.toNat
  rw [UInt32.toNat, BitVec.ofNat_toNat, BitVec.setWidth_eq]

theorem cons_of_nextBy {α : Type} {read : String → Nat → SigTree → Except (Failure ArgumentFault) α}
    {as rest : List SigTree} {v : α} (h : nextBy read node i as = .ok (v, rest)) :
    ∃ a, as = a :: rest ∧ read node i a = .ok v := by
  cases as with
  | nil => exact nomatch h
  | cons a as =>
      obtain ⟨v', hv, h⟩ := bind_eq_ok.1 h
      cases h
      exact ⟨a, rfl, hv⟩

/-- What has been read stands in front, as many as were asked for. -/
theorem append_of_runBy {α : Type} {read : String → Nat → SigTree → Except (Failure ArgumentFault) α}
    {tree : α → SigTree} (hread : ∀ i a v, read node i a = .ok v → a = tree v) {n : Nat}
    {as rest : List SigTree} {vs : List α} (h : runBy read node i n as = .ok (vs, rest)) :
    as = vs.map tree ++ rest ∧ n = vs.length := by
  induction n generalizing i as vs with
  | zero =>
      cases h
      exact ⟨rfl, rfl⟩
  | succ n ih =>
      cases as with
      | nil => exact nomatch h
      | cons a as =>
          obtain ⟨v, hv, h⟩ := bind_eq_ok.1 h
          obtain ⟨⟨vs', rest'⟩, hr, h⟩ := bind_eq_ok.1 h
          cases h
          obtain ⟨rfl, rfl⟩ := ih hr
          rw [hread _ _ _ hv]
          exact ⟨rfl, rfl⟩

/-- The rank, the number of sizes and the number of lower bounds are read as what the dimensions have. -/
structure Writing.ArrayShape.ReadFrom (shape : ArrayShape) (a b d : SigTree) : Prop where
  rank : ∃ node i, unsignedOf node i a = .ok shape.rank
  sizes : ∃ node i m, unsignedOf node i b = .ok m ∧ m.toNat = shape.sizes.length
  lowerBounds : ∃ node i n, unsignedOf node i d = .ok n ∧ n.toNat = shape.lowerBounds.length

theorem read_of_ofArguments {as : List SigTree} {shape : ArrayShape}
    (h : ArrayShape.ofArguments as = .ok shape) : ∃ a b d, shape.ReadFrom a b d ∧
      as = a :: (b :: shape.sizes.map fun n => .int32 n.toInt32) ++
        (d :: shape.lowerBounds.map .int32) := by
  unfold ArrayShape.ofArguments at h
  obtain ⟨⟨rank, _⟩, hrank, h⟩ := bind_eq_ok.1 h
  obtain ⟨⟨m, _⟩, hm, h⟩ := bind_eq_ok.1 h
  obtain ⟨⟨sizes, _⟩, hsizes, h⟩ := bind_eq_ok.1 h
  obtain ⟨⟨n, _⟩, hn, h⟩ := bind_eq_ok.1 h
  obtain ⟨⟨lowerBounds, rest⟩, hlower, h⟩ := bind_eq_ok.1 h
  obtain ⟨a, rfl, ha⟩ := cons_of_nextBy hrank
  obtain ⟨b, rfl, hb⟩ := cons_of_nextBy hm
  obtain ⟨rfl, hsize⟩ := append_of_runBy (fun _ _ _ h => tree_of_unsignedOf h) hsizes
  obtain ⟨d, rfl, hd⟩ := cons_of_nextBy hn
  obtain ⟨rfl, hlowest⟩ := append_of_runBy (fun _ _ _ h => tree_of_integerOf h) hlower
  dsimp only at h
  by_cases hempty : rest.isEmpty = true
  · rw [if_pos hempty] at h
    cases h
    refine ⟨a, b, d, ⟨⟨_, _, ha⟩, ⟨_, _, m, hb, hsize⟩, _, _, n, hd, hlowest⟩, ?_⟩
    rw [List.isEmpty_iff.1 hempty, List.append_nil]
    rfl
  · rw [if_neg hempty] at h
    exact nomatch h

/-- The arguments of an array are its rank, its sizes and its lower bounds. -/
theorem eq_of_ofArguments_ok {as : List SigTree} {shape : ArrayShape}
    (h : ArrayShape.ofArguments as = .ok shape) :
    as = .int32 shape.rank.toInt32 ::
      (lengthTree shape.sizes :: shape.sizes.map fun n => .int32 n.toInt32) ++
        (lengthTree shape.lowerBounds :: shape.lowerBounds.map .int32) := by
  obtain ⟨a, b, d, ⟨⟨_, _, ha⟩, ⟨_, _, _, hb, hsizes⟩, _, _, _, hd, hlower⟩, rfl⟩ :=
    read_of_ofArguments h
  rw [tree_of_unsignedOf ha, lengthTree_of_unsignedOf hb hsizes, lengthTree_of_unsignedOf hd hlower]

end CilCatalog
