import CilCatalog.Proofs.Outcome
import CilCatalog.SigTree.Shape

/-!
# What fits a shape

`Slot.Takes s as` says what the arguments of a slot look like, without a word on how they are read: a count is not negative and is the number of the items behind it, and of the parameters at most one has a `Sentinel` in front, which is not counted.  `Shape.Fits` is the same for a row of slots.

* A slot skips exactly the lists it takes (`skip_eq_ok`).
* An argument list passes the check of an element type or of a calling convention exactly if it fits (`ElementType.checkArgs_eq_ok`, `CallingConvention.checkArgs_eq_ok`).
-/

namespace CilCatalog

/-- A number of parameters: at most one of them has a `Sentinel` in front, which is no parameter itself. -/
inductive Parameters : Nat → List SigTree → Prop where
  | plain {n : Nat} {ps : List SigTree} (hn : ps.length = n)
      (hp : ∀ p ∈ ps, p.isSentinel = false) : Parameters n ps
  | variadic {n : Nat} {m : SigTree} {ps vs : List SigTree} (hn : ps.length + vs.length = n)
      (hp : ∀ p ∈ ps, p.isSentinel = false) (hm : m.isSentinel = true) (hne : vs ≠ [])
      (hv : ∀ p ∈ vs, p.isSentinel = false) : Parameters n (ps ++ m :: vs)

/-- The arguments of a slot. -/
inductive Slot.Takes : Slot → List SigTree → Prop where
  | node (a : SigTree) : Takes .node [a]
  | integer (v : Int32) : Takes .integer [.int32 v]
  | count {v : Int32} (h : 0 ≤ v.toInt) : Takes .count [.int32 v]
  | nodes {v : Int32} {as : List SigTree} (h : v.toInt = as.length) : Takes .nodes (.int32 v :: as)
  | integers {v : Int32} {vs : List Int32} (h : v.toInt = vs.length) :
      Takes .integers (.int32 v :: vs.map .int32)
  | parameters {v : Int32} {n : Nat} {ret : SigTree} {ps : List SigTree} (h : v.toInt = n)
      (hp : Parameters n ps) : Takes .parameters (.int32 v :: ret :: ps)

/-- The arguments of a row of slots. -/
inductive Shape.Fits : Shape → List SigTree → Prop where
  | nil : Fits [] []
  | cons {s : Slot} {r : Shape} {as bs : List SigTree} (ha : s.Takes as) (hr : Fits r bs) :
      Fits (s :: r) (as ++ bs)

/-! ### Parameters from left to right -/

theorem parameters_zero_iff {as : List SigTree} : Parameters 0 as ↔ as = [] := by
  constructor
  · intro h
    cases h with
    | plain hn => exact List.length_eq_zero_iff.1 hn
    | variadic hn _ _ hne => exact absurd (List.length_eq_zero_iff.1 (Nat.add_eq_zero_iff.1 hn).2) hne
  · rintro rfl
    exact .plain rfl (by simp)

theorem not_parameters_nil {n : Nat} : ¬ Parameters (n + 1) [] := by
  intro h
  generalize has : [] = as at h
  cases h with
  | plain hn => subst has; exact nomatch hn
  | variadic => exact absurd has (by simp)

/-- A parameter is counted. -/
theorem parameters_cons_iff {a : SigTree} {as : List SigTree} {n : Nat}
    (ha : a.isSentinel = false) : Parameters (n + 1) (a :: as) ↔ Parameters n as := by
  have cons : ∀ {ps : List SigTree}, (∀ p ∈ ps, p.isSentinel = false) →
      ∀ p ∈ a :: ps, p.isSentinel = false := fun h p hp => by
    cases hp with
    | head => exact ha
    | tail _ hp => exact h p hp
  constructor
  · intro h
    generalize hb : a :: as = bs at h
    cases h with
    | plain hn hp =>
        subst hb
        exact .plain (by simpa using hn) fun p h => hp p (List.mem_cons_of_mem a h)
    | @variadic m ps vs hn hp hm hne hv =>
        cases ps with
        | nil =>
            cases hb
            rw [ha] at hm
            exact nomatch hm
        | cons b ps =>
            cases hb
            rw [List.length_cons] at hn
            exact .variadic (by omega) (fun p h => hp p (List.mem_cons_of_mem a h)) hm hne hv
  · intro h
    cases h with
    | plain hn hp => exact .plain (by rw [List.length_cons, hn]) (cons hp)
    | @variadic m ps vs hn hp hm hne hv =>
        exact @Parameters.variadic _ m (a :: ps) vs (by rw [List.length_cons]; omega) (cons hp) hm hne hv

/-- Behind the marker there is no second one. -/
theorem parameters_sentinel_cons_iff {a : SigTree} {as : List SigTree} {n : Nat}
    (ha : a.isSentinel = true) :
    Parameters (n + 1) (a :: as) ↔ as.length = n + 1 ∧ ∀ p ∈ as, p.isSentinel = false := by
  have absurd : ∀ {ps : List SigTree}, ¬ ∀ p ∈ a :: ps, p.isSentinel = false := fun h => by
    rw [h a List.mem_cons_self] at ha
    exact nomatch ha
  constructor
  · intro h
    generalize hb : a :: as = bs at h
    cases h with
    | plain _ hp => subst hb; exact (absurd hp).elim
    | @variadic m ps vs hn hp hm hne hv =>
        cases ps with
        | nil => cases hb; exact ⟨by simpa using hn, hv⟩
        | cons b ps => cases hb; exact (absurd hp).elim
  · rintro ⟨hn, hv⟩
    have hne : as ≠ [] := by rintro rfl; exact nomatch hn
    exact @Parameters.variadic _ a [] as (by simpa using hn) (by simp) ha hne hv

/-! ### Places in an argument list -/

namespace ArgCursor

variable {owner : String} {pos pos' n : Nat} {as rest : List SigTree}

theorem node_eq_ok {a : SigTree} {c : ArgCursor} :
    node owner ⟨pos, as⟩ = .ok (a, c) ↔ as = a :: c.ahead ∧ c.position = pos + 1 := by
  cases as with
  | nil => simp [node]
  | cons b bs =>
      obtain ⟨p, ahead⟩ := c
      simp only [node, Except.ok.injEq, Prod.mk.injEq, ArgCursor.mk.injEq, List.cons.injEq]
      exact ⟨fun ⟨h, h₁, h₂⟩ => ⟨⟨h, h₂⟩, h₁.symm⟩, fun ⟨⟨h, h₂⟩, h₁⟩ => ⟨h, h₁.symm, h₂⟩⟩

theorem int32?_eq_some {a : SigTree} {v : Int32} : a.int32? = some v ↔ a = .int32 v := by
  cases a <;> simp [SigTree.int32?]

theorem integer_eq_ok {v : Int32} {c : ArgCursor} :
    integer owner ⟨pos, as⟩ = .ok (v, c) ↔ as = .int32 v :: c.ahead ∧ c.position = pos + 1 := by
  rw [integer, bind_eq_ok]
  constructor
  · rintro ⟨⟨a, d⟩, ha, h⟩
    dsimp only at h
    split at h
    · next w hw =>
        cases h
        rw [← int32?_eq_some.1 hw]
        exact node_eq_ok.1 ha
    · exact nomatch h
  · intro h
    exact ⟨(.int32 v, c), node_eq_ok.2 h, rfl⟩

theorem count_eq_ok {c : ArgCursor} :
    count owner ⟨pos, as⟩ = .ok (n, c) ↔
      ∃ v : Int32, v.toInt = n ∧ as = .int32 v :: c.ahead ∧ c.position = pos + 1 := by
  rw [count, bind_eq_ok]
  constructor
  · rintro ⟨⟨v, d⟩, hv, h⟩
    dsimp only at h
    split at h
    · exact nomatch h
    · next hneg =>
        cases h
        have := mt Int32.lt_iff_toInt_lt.2 hneg
        rw [Int32.toInt_zero] at this
        exact ⟨v, by omega, integer_eq_ok.1 hv⟩
  · rintro ⟨v, hn, h⟩
    refine ⟨(v, c), integer_eq_ok.2 h, ?_⟩
    have hneg : ¬ v < 0 := by
      rw [Int32.lt_iff_toInt_lt, Int32.toInt_zero]
      omega
    simp only [hneg, if_false, hn, Int.toNat_natCast]

theorem skipNodes_eq_ok : skipNodes owner pos as n = .ok ⟨pos', rest⟩ ↔
    ∃ taken, as = taken ++ rest ∧ pos' = pos + taken.length ∧ taken.length = n := by
  induction n generalizing pos as with
  | zero =>
      simp only [skipNodes, Except.ok.injEq, ArgCursor.mk.injEq]
      constructor
      · rintro ⟨rfl, rfl⟩
        exact ⟨[], rfl, rfl, rfl⟩
      · rintro ⟨taken, rfl, rfl, h⟩
        rw [List.length_eq_zero_iff.1 h]
        exact ⟨rfl, rfl⟩
  | succ n ih =>
      cases as with
      | nil =>
          refine ⟨nofun, ?_⟩
          rintro ⟨taken, h, -, hn⟩
          rw [(List.append_eq_nil_iff.1 h.symm).1] at hn
          exact nomatch hn
      | cons a as =>
          rw [skipNodes, ih]
          constructor
          · rintro ⟨taken, rfl, rfl, rfl⟩
            exact ⟨a :: taken, rfl, by rw [List.length_cons]; omega, rfl⟩
          · rintro ⟨_ | ⟨b, taken⟩, h, hp, hn⟩
            · exact nomatch hn
            · cases h
              refine ⟨taken, rfl, ?_, by simpa using hn⟩
              rw [List.length_cons] at hp
              omega

theorem skipIntegers_eq_ok : skipIntegers owner pos as n = .ok ⟨pos', rest⟩ ↔
    ∃ vs : List Int32, as = vs.map .int32 ++ rest ∧ pos' = pos + vs.length ∧ vs.length = n := by
  induction n generalizing pos as with
  | zero =>
      simp only [skipIntegers, Except.ok.injEq, ArgCursor.mk.injEq]
      constructor
      · rintro ⟨rfl, rfl⟩
        exact ⟨[], rfl, rfl, rfl⟩
      · rintro ⟨vs, rfl, rfl, h⟩
        rw [List.length_eq_zero_iff.1 h]
        exact ⟨rfl, rfl⟩
  | succ n ih =>
      cases as with
      | nil =>
          refine ⟨nofun, ?_⟩
          rintro ⟨vs, h, -, hn⟩
          rw [List.map_eq_nil_iff.1 (List.append_eq_nil_iff.1 h.symm).1] at hn
          exact nomatch hn
      | cons a as =>
          rw [skipIntegers]
          constructor
          · intro h
            split at h
            · next v hv =>
                obtain ⟨vs, rfl, rfl, rfl⟩ := ih.1 h
                rw [int32?_eq_some.1 hv]
                exact ⟨v :: vs, rfl, by rw [List.length_cons]; omega, rfl⟩
            · exact nomatch h
          · rintro ⟨_ | ⟨v, vs⟩, h, hp, hn⟩
            · exact nomatch hn
            · cases h
              rw [List.length_cons] at hp
              exact ih.2 ⟨vs, rfl, by omega, by simpa using hn⟩

/-- Behind the marker, parameters are skipped like other trees, as long as none is a marker. -/
theorem skipParameters_true_eq_ok : skipParameters owner true pos as n = .ok ⟨pos', rest⟩ ↔
    ∃ vs, as = vs ++ rest ∧ pos' = pos + vs.length ∧ vs.length = n ∧
      ∀ p ∈ vs, p.isSentinel = false := by
  induction n generalizing pos as with
  | zero =>
      simp only [skipParameters, Except.ok.injEq, ArgCursor.mk.injEq]
      constructor
      · rintro ⟨rfl, rfl⟩
        exact ⟨[], rfl, rfl, rfl, by simp⟩
      · rintro ⟨vs, rfl, rfl, h, -⟩
        rw [List.length_eq_zero_iff.1 h]
        exact ⟨rfl, rfl⟩
  | succ n ih =>
      cases as with
      | nil =>
          refine ⟨nofun, ?_⟩
          rintro ⟨vs, h, -, hn, -⟩
          rw [(List.append_eq_nil_iff.1 h.symm).1] at hn
          exact nomatch hn
      | cons a as =>
          rw [skipParameters]
          constructor
          · intro h
            split at h
            · exact nomatch h
            · next ha =>
                obtain ⟨vs, rfl, rfl, rfl, hv⟩ := ih.1 h
                refine ⟨a :: vs, rfl, by rw [List.length_cons]; omega, rfl, ?_⟩
                rintro p (_ | ⟨_, hp⟩)
                · simpa using ha
                · exact hv p hp
          · rintro ⟨_ | ⟨b, vs⟩, h, hp, hn, hv⟩
            · exact nomatch hn
            · cases h
              rw [hv a List.mem_cons_self, if_neg Bool.false_ne_true]
              rw [List.length_cons] at hp
              exact ih.2 ⟨vs, rfl, by omega, by simpa using hn,
                fun p h => hv p (List.mem_cons_of_mem a h)⟩

/-- In front of the marker, what is skipped is a number of parameters with or without it. -/
theorem skipParameters_false_eq_ok : skipParameters owner false pos as n = .ok ⟨pos', rest⟩ ↔
    ∃ ps, as = ps ++ rest ∧ pos' = pos + ps.length ∧ Parameters n ps := by
  induction n generalizing pos as with
  | zero =>
      simp only [skipParameters, Except.ok.injEq, ArgCursor.mk.injEq, parameters_zero_iff]
      constructor
      · rintro ⟨rfl, rfl⟩
        exact ⟨[], rfl, rfl, rfl⟩
      · rintro ⟨_, rfl, rfl, rfl⟩
        exact ⟨rfl, rfl⟩
  | succ n ih =>
      cases as with
      | nil =>
          refine ⟨nofun, ?_⟩
          rintro ⟨ps, h, -, hn⟩
          rw [(List.append_eq_nil_iff.1 h.symm).1] at hn
          exact (not_parameters_nil hn).elim
      | cons a as =>
          rw [skipParameters]
          by_cases ha : a.isSentinel = true
          · rw [if_pos ha, if_neg Bool.false_ne_true, skipParameters_true_eq_ok]
            constructor
            · rintro ⟨vs, rfl, rfl, hn⟩
              exact ⟨a :: vs, rfl, by rw [List.length_cons]; omega,
                (parameters_sentinel_cons_iff ha).2 hn⟩
            · rintro ⟨_ | ⟨b, vs⟩, h, hp, hn⟩
              · exact (not_parameters_nil hn).elim
              · cases h
                rw [List.length_cons] at hp
                exact ⟨vs, rfl, by omega, (parameters_sentinel_cons_iff ha).1 hn⟩
          · rw [if_neg ha, ih]
            rw [Bool.not_eq_true] at ha
            constructor
            · rintro ⟨ps, rfl, rfl, hn⟩
              exact ⟨a :: ps, rfl, by rw [List.length_cons]; omega, (parameters_cons_iff ha).2 hn⟩
            · rintro ⟨_ | ⟨b, ps⟩, h, hp, hn⟩
              · exact (not_parameters_nil hn).elim
              · cases h
                rw [List.length_cons] at hp
                exact ⟨ps, rfl, by omega, (parameters_cons_iff ha).1 hn⟩

end ArgCursor

/-! ### Checks -/

variable {owner : String}

/-- What a slot skips is what it takes. -/
theorem Slot.skip_eq_ok {s : Slot} {pos pos' : Nat} {as rest : List SigTree} :
    s.skip owner ⟨pos, as⟩ = .ok ⟨pos', rest⟩ ↔
      ∃ taken, as = taken ++ rest ∧ pos' = pos + taken.length ∧ s.Takes taken := by
  -- each kind of slot takes what its own reading of the cursor skips
  cases s with
  | node =>
      rw [skip, bind_eq_ok]
      constructor
      · rintro ⟨⟨a, c⟩, h, hc⟩
        cases hc
        obtain ⟨rfl, rfl⟩ := ArgCursor.node_eq_ok.1 h
        exact ⟨[a], rfl, rfl, .node a⟩
      · rintro ⟨_, rfl, rfl, _ | _⟩
        exact ⟨_, ArgCursor.node_eq_ok.2 ⟨rfl, rfl⟩, rfl⟩
  | integer =>
      rw [skip, bind_eq_ok]
      constructor
      · rintro ⟨⟨v, c⟩, h, hc⟩
        cases hc
        obtain ⟨rfl, rfl⟩ := ArgCursor.integer_eq_ok.1 h
        exact ⟨[.int32 v], rfl, rfl, .integer v⟩
      · rintro ⟨_, rfl, rfl, _ | _⟩
        exact ⟨_, ArgCursor.integer_eq_ok.2 ⟨rfl, rfl⟩, rfl⟩
  | count =>
      rw [skip, bind_eq_ok]
      constructor
      · rintro ⟨⟨n, c⟩, h, hc⟩
        cases hc
        obtain ⟨v, hv, rfl, rfl⟩ := ArgCursor.count_eq_ok.1 h
        exact ⟨[.int32 v], rfl, rfl, .count (by omega)⟩
      · rintro ⟨_, rfl, rfl, _ | _⟩
        next v hv => exact ⟨⟨v.toInt.toNat, _⟩, ArgCursor.count_eq_ok.2 ⟨v, by omega, rfl, rfl⟩, rfl⟩
  | nodes =>
      rw [skip, bind_eq_ok]
      constructor
      · rintro ⟨⟨n, c⟩, h, hc⟩
        obtain ⟨v, hv, rfl, hp⟩ := ArgCursor.count_eq_ok.1 h
        obtain ⟨taken, ht, rfl, rfl⟩ := ArgCursor.skipNodes_eq_ok.1 hc
        exact ⟨.int32 v :: taken, by rw [ht]; rfl, by rw [hp, List.length_cons]; omega, .nodes hv⟩
      · rintro ⟨_, rfl, rfl, _ | _⟩
        next v as hv =>
          refine ⟨⟨as.length, ⟨pos + 1, as ++ rest⟩⟩, ArgCursor.count_eq_ok.2 ⟨v, hv, rfl, rfl⟩, ?_⟩
          exact ArgCursor.skipNodes_eq_ok.2 ⟨as, rfl, by simp only [List.length_cons]; omega, rfl⟩
  | integers =>
      rw [skip, bind_eq_ok]
      constructor
      · rintro ⟨⟨n, c⟩, h, hc⟩
        obtain ⟨v, hv, rfl, hp⟩ := ArgCursor.count_eq_ok.1 h
        obtain ⟨vs, ht, rfl, rfl⟩ := ArgCursor.skipIntegers_eq_ok.1 hc
        refine ⟨.int32 v :: vs.map .int32, by rw [ht]; rfl, ?_, .integers hv⟩
        rw [hp, List.length_cons, List.length_map]
        omega
      · rintro ⟨_, rfl, rfl, _ | _⟩
        next v vs hv =>
          refine ⟨⟨vs.length, ⟨pos + 1, vs.map .int32 ++ rest⟩⟩,
            ArgCursor.count_eq_ok.2 ⟨v, hv, rfl, rfl⟩, ?_⟩
          refine ArgCursor.skipIntegers_eq_ok.2 ⟨vs, rfl, ?_, rfl⟩
          simp only [List.length_cons, List.length_map]
          omega
  | parameters =>
      rw [skip, bind_eq_ok]
      constructor
      · rintro ⟨⟨n, c⟩, h, hc⟩
        obtain ⟨v, hv, rfl, hp⟩ := ArgCursor.count_eq_ok.1 h
        obtain ⟨⟨ret, d⟩, hr, hd⟩ := bind_eq_ok.1 hc
        obtain ⟨ha, hp'⟩ := ArgCursor.node_eq_ok.1 hr
        obtain ⟨ps, ht, rfl, hn⟩ := ArgCursor.skipParameters_false_eq_ok.1 hd
        refine ⟨.int32 v :: ret :: ps, by rw [ha, ht]; rfl, ?_, .parameters hv hn⟩
        rw [hp', hp, List.length_cons, List.length_cons]
        omega
      · rintro ⟨_, rfl, rfl, _ | _⟩
        next v n ret ps hv hn =>
          refine ⟨⟨n, ⟨pos + 1, ret :: ps ++ rest⟩⟩, ArgCursor.count_eq_ok.2 ⟨v, hv, rfl, rfl⟩, ?_⟩
          refine bind_eq_ok.2 ⟨⟨ret, ⟨pos + 1 + 1, ps ++ rest⟩⟩,
            ArgCursor.node_eq_ok.2 ⟨rfl, rfl⟩, ?_⟩
          refine ArgCursor.skipParameters_false_eq_ok.2 ⟨ps, rfl, ?_, hn⟩
          simp only [List.length_cons]
          omega

theorem Shape.check_eq_ok {r : Shape} {c : ArgCursor} :
    r.check owner c = .ok () ↔ r.Fits c.ahead := by
  induction r generalizing c with
  | nil =>
      obtain ⟨pos, _ | ⟨a, as⟩⟩ := c
      · exact ⟨fun _ => .nil, fun _ => rfl⟩
      · exact ⟨nofun, nofun⟩
  | cons s r ih =>
      obtain ⟨pos, as⟩ := c
      rw [check, bind_eq_ok]
      constructor
      · rintro ⟨⟨pos', rest⟩, hs, h⟩
        obtain ⟨taken, rfl, -, ht⟩ := Slot.skip_eq_ok.1 hs
        exact .cons ht (ih.1 h)
      · rintro (_ | ⟨ha, hr⟩)
        exact ⟨⟨_, _⟩, Slot.skip_eq_ok.2 ⟨_, rfl, rfl, ha⟩, ih.2 hr⟩

/-- Every slot takes an argument. -/
theorem Slot.Takes.ne_nil {s : Slot} {as : List SigTree} (h : s.Takes as) : as ≠ [] := by
  cases h <;> exact List.cons_ne_nil _ _

theorem ElementType.shape_ne_nil {e : ElementType} (he : e.isLeaf = false) : e.shape ≠ [] := by
  revert he
  cases e <;> decide

/-- An element type that is no leaf has arguments. -/
theorem ElementType.ne_nil_of_fits {e : ElementType} {as : List SigTree} (he : e.isLeaf = false)
    (h : e.shape.Fits as) : as ≠ [] := by
  have hne := shape_ne_nil he
  generalize e.shape = r at h hne
  cases h with
  | nil => exact absurd rfl hne
  | cons ha => exact fun e => ha.ne_nil (List.append_eq_nil_iff.1 e).1

theorem ElementType.checkArgs_eq_ok {e : ElementType} {as : List SigTree} :
    e.checkArgs as = .ok () ↔ e.shape.Fits as :=
  Shape.check_eq_ok

/-- The arguments of a calling convention are its flags and what fits the shape they announce. -/
theorem CallingConvention.checkArgs_eq_ok {k : CallingConvention} {as : List SigTree} :
    k.checkArgs as = .ok () ↔
      ∃ flags rest, as = .int32 flags :: rest ∧ (k.shape flags).Fits rest := by
  rw [checkArgs, bind_eq_ok]
  constructor
  · rintro ⟨⟨flags, c⟩, h, hc⟩
    exact ⟨flags, c.ahead, (ArgCursor.integer_eq_ok.1 h).1, Shape.check_eq_ok.1 hc⟩
  · rintro ⟨flags, rest, rfl, h⟩
    exact ⟨⟨flags, ⟨1, rest⟩⟩, ArgCursor.integer_eq_ok.2 ⟨rfl, rfl⟩, Shape.check_eq_ok.2 h⟩

end CilCatalog
