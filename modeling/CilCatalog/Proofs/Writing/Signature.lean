import Mathlib.Data.FinEnum
import CilCatalog.Proofs.Writing.Argument

/-!
# Writing signature trees

What the writer does with each kind of tree that a reader makes.  Parameters are split at the marker (`gives_parametersOf`), and the flags of a signature are those that have been put down (`flagsOf_flagsTree`).
-/

namespace CilCatalog

open Live Writing
open Reading (parameterTrees)

variable {c : Catalog} {w w' : WriteState}

/-! ### Signatures of types -/

section Equations

variable (c : Catalog)

theorem typeSigOf_leaf (e : ElementType) (h : e.isLeaf = true) :
    typeSigOf c (.ofElement e) = pure (.leaf e h) := by
  cases e <;> first | rfl | exact nomatch h

theorem typeSigOf_wrapper (v : Wrapper) (t : SigTree) :
    typeSigOf c (.ofElement v.elementType [t]) = do return .wrapper v (← typeSigOf c t) := by
  cases v <;> rfl

theorem typeSigOf_fnPtr (t : SigTree) :
    typeSigOf c (.ofElement .fnPtr [t]) = (do
      let sig ← callSigOf c t
      if sig.isMethod then return .fnPtr sig else refuse .functionPointer) :=
  callSigOf_askable t _

theorem typeSigOf_named (byValue : Bool) (k : Token) :
    typeSigOf c (.ofElement (if byValue then .valueType else .cls) [.token k]) = do
      return .named byValue (← typeOfToken c k) := by
  cases byValue <;> rfl

theorem typeSigOf_generic (ofMethod : Bool) (n : SigTree) :
    typeSigOf c (.ofElement (if ofMethod then .mvar else .var) [n]) = do
      return .generic ofMethod (← argument
        (unsignedOf (if ofMethod then ElementType.mvar else .var).name 0 n)) := by
  cases ofMethod <;> exact bind_nextBy_cons ..

theorem typeSigOf_array (t : SigTree) (rest : List SigTree) :
    typeSigOf c (.ofElement .array (t :: rest)) = do
      let next ← typeSigOf c t
      let shape ← argument (ArrayShape.ofArguments rest)
      return .array next shape.rank shape.sizes shape.lowerBounds := rfl

theorem typeSigOf_genericInst (t n : SigTree) (rest : List SigTree) :
    typeSigOf c (.ofElement .genericInst (t :: n :: rest)) = do
      let type ← typeSigOf c t
      let count ← argument (unsignedOf ElementType.genericInst.name 1 n)
      argument (checkCount ElementType.genericInst.name (2 + count.toNat) (2 + rest.length))
      return .genericInst type (← typeSigsOf c rest) :=
  bind_congr fun _ => bind_congr fun _ => checkCount_countedSigsOf ..

theorem typeSigOf_valueArray (t n : SigTree) :
    typeSigOf c (.ofElement .valueArray [t, n]) = do
      let next ← typeSigOf c t
      return .valueArray next (← argument (unsignedOf ElementType.valueArray.name 1 n)) :=
  bind_congr fun _ => bind_nextBy_cons ..

theorem typeSigOf_modifier (required : Bool) (m t : SigTree) :
    typeSigOf c (.ofElement (if required then .cmodReqd else .cmodOpt) [m, t]) = do
      let modifier ← rowOfTree c m
      return .modifier required modifier (← typeSigOf c t) := by
  cases required <;> rfl

theorem typeSigOf_module (n t : SigTree) :
    typeSigOf c (.ofElement .module [n, t]) = do
      let index ← argument (unsignedOf ElementType.module.name 0 n)
      return .module index (← typeSigOf c t) := bind_nextBy_cons ..

theorem callSigOf_field (t : SigTree) :
    callSigOf c (.ofConvention .field [.int32 0, t]) = do return .field (← typeSigOf c t) := rfl

theorem callSigOf_locals (as : List SigTree) :
    callSigOf c (.ofConvention .localSig (.int32 0 :: as)) = do
      return .locals (← countedTypesOf c .localSig as) := rfl

theorem callSigOf_inst (as : List SigTree) :
    callSigOf c (.ofConvention .genericInst (.int32 0 :: as)) = do
      return .inst (← countedTypesOf c .genericInst as) := rfl

end Equations

/-! ### Parameters -/

theorem gives_typeSigsOf_nil {ts : List TypeSig} :
    Gives (typeSigsOf c []) w ts w' ↔ ts = [] ∧ w' = w := gives_pure

theorem gives_typeSigsOf_cons {t : SigTree} {ts : List SigTree} {us : List TypeSig} :
    Gives (typeSigsOf c (t :: ts)) w us w' ↔
      ∃ u w₁ us', Gives (typeSigOf c t) w u w₁ ∧ Gives (typeSigsOf c ts) w₁ us' w' ∧
        us = u :: us' := by
  change Gives (typeSigOf c t >>= fun u => typeSigsOf c ts >>= fun us => pure (u :: us)) w us w' ↔ _
  rw [gives_bind]
  constructor
  · rintro ⟨u, w₁, hu, h⟩
    obtain ⟨us', w₂, hus, h⟩ := gives_bind.1 h
    obtain ⟨rfl, rfl⟩ := gives_pure.1 h
    exact ⟨u, w₁, us', hu, hus, rfl⟩
  · rintro ⟨u, w₁, us', hu, hus, rfl⟩
    exact ⟨u, w₁, hu, gives_bind.2 ⟨us', w', hus, gives_pure.2 ⟨rfl, rfl⟩⟩⟩

/-- Behind the marker there is no other. -/
theorem gives_parametersOf_after {ts : List SigTree} {ps vs : List TypeSig}
    (h : Gives (parametersOf c true ts) w (ps, vs) w') :
    (∀ t ∈ ts, t.isSentinel = false) ∧ ps = [] ∧ Gives (typeSigsOf c ts) w vs w' := by
  induction ts generalizing w ps vs with
  | nil =>
      obtain ⟨heq, rfl⟩ := gives_pure.1 h
      cases heq
      exact ⟨nofun, rfl, gives_pure.2 ⟨rfl, rfl⟩⟩
  | cons t ts ih =>
      rw [parametersOf] at h
      split at h
      · obtain ⟨_, _, h, -⟩ := gives_bind.1 h
        exact absurd h gives_refuseWrite
      · next ht =>
          obtain ⟨u, w₁, hu, h⟩ := gives_bind.1 h
          obtain ⟨⟨ps', vs'⟩, w₂, hrest, h⟩ := gives_bind.1 h
          obtain ⟨heq, rfl⟩ := gives_pure.1 h
          cases heq
          obtain ⟨hne, rfl, hvs⟩ := ih hrest
          refine ⟨?_, rfl, gives_typeSigsOf_cons.2 ⟨u, w₁, vs', hu, hvs, rfl⟩⟩
          rintro t' (_ | ⟨_, ht'⟩)
          · exact eq_false_of_ne_true ht
          · exact hne t' ht'

/-- Parameters are what is before the marker, and what is behind it, if there is one. -/
theorem gives_parametersOf {ts : List SigTree} {ps vs : List TypeSig}
    (h : Gives (parametersOf c false ts) w (ps, vs) w') :
    (∀ t ∈ ts, t.isSentinel = false) ∧ vs = [] ∧ Gives (typeSigsOf c ts) w ps w' ∨
    ∃ xs m ys w₁, ts = xs ++ m :: ys ∧ m.isSentinel = true ∧ (∀ t ∈ xs, t.isSentinel = false) ∧
      (∀ t ∈ ys, t.isSentinel = false) ∧ Gives (typeSigsOf c xs) w ps w₁ ∧
      Gives (typeSigsOf c ys) w₁ vs w' := by
  induction ts generalizing w ps vs with
  | nil =>
      obtain ⟨heq, rfl⟩ := gives_pure.1 h
      cases heq
      exact .inl ⟨nofun, rfl, gives_pure.2 ⟨rfl, rfl⟩⟩
  | cons t ts ih =>
      rw [parametersOf] at h
      split at h
      · next ht =>
          obtain ⟨hne, rfl, hvs⟩ := gives_parametersOf_after h
          exact .inr ⟨[], t, ts, w, rfl, ht, nofun, hne, gives_pure.2 ⟨rfl, rfl⟩, hvs⟩
      · next ht =>
          obtain ⟨u, w₁, hu, h⟩ := gives_bind.1 h
          obtain ⟨⟨ps', vs'⟩, w₂, hrest, h⟩ := gives_bind.1 h
          obtain ⟨heq, rfl⟩ := gives_pure.1 h
          cases heq
          have hcons : ∀ {ts : List SigTree}, (∀ t' ∈ ts, t'.isSentinel = false) →
              ∀ t' ∈ t :: ts, t'.isSentinel = false := by
            rintro ts hne t' (_ | ⟨_, ht'⟩)
            · exact eq_false_of_ne_true ht
            · exact hne t' ht'
          rcases ih hrest with ⟨hne, rfl, hps⟩ | ⟨xs, m, ys, w₂, rfl, hm, hxs, hys, hps, hvs⟩
          · exact .inl ⟨hcons hne, rfl, gives_typeSigsOf_cons.2 ⟨u, w₁, ps', hu, hps, rfl⟩⟩
          · exact .inr ⟨t :: xs, m, ys, w₂, rfl, hm, hcons hxs, hys,
              gives_typeSigsOf_cons.2 ⟨u, w₁, ps', hu, hps, rfl⟩, hvs⟩

/-- As many signatures are made as there are trees. -/
theorem length_of_typeSigsOf {ts : List SigTree} {us : List TypeSig}
    (h : Gives (typeSigsOf c ts) w us w') : us.length = ts.length := by
  induction ts generalizing w us with
  | nil =>
      obtain ⟨rfl, -⟩ := gives_typeSigsOf_nil.1 h
      rfl
  | cons t ts ih =>
      obtain ⟨u, w₁, us', -, hus, rfl⟩ := gives_typeSigsOf_cons.1 h
      rw [List.length_cons, ih hus, List.length_cons]

/-- All trees are parameters, but for one marker at most. -/
theorem length_of_parametersOf {ts : List SigTree} {ps vs : List TypeSig}
    (h : Gives (parametersOf c false ts) w (ps, vs) w') :
    ts.length ≤ ps.length + vs.length + 1 := by
  rcases gives_parametersOf h with ⟨-, rfl, hps⟩ | ⟨xs, m, ys, w₁, rfl, -, -, -, hps, hvs⟩
  · rw [length_of_typeSigsOf hps]
    exact Nat.le_succ _
  · rw [length_of_typeSigsOf hps, length_of_typeSigsOf hvs, List.length_append, List.length_cons]
    exact Nat.le_refl _

/-- Where all parameters are counted, they are split as they have been. -/
theorem gives_parameterTrees {ps vs : List SigTree} {ps' vs' : List TypeSig}
    (h : Gives (parametersOf c false (parameterTrees ps vs)) w (ps', vs') w')
    (hcount : ps'.length + vs'.length = ps.length + vs.length) :
    ∃ w₁, Gives (typeSigsOf c ps) w ps' w₁ ∧ Gives (typeSigsOf c vs) w₁ vs' w' := by
  unfold parameterTrees at h
  split at h
  · next hempty =>
      obtain rfl := List.isEmpty_iff.1 hempty
      rcases gives_parametersOf h with ⟨-, rfl, hps⟩ | ⟨xs, m, ys, w₁, rfl, -, -, -, hps, hvs⟩
      · exact ⟨w', hps, gives_pure.2 ⟨rfl, rfl⟩⟩
      · -- a marker would not be counted
        have hx := length_of_typeSigsOf hps
        have hy := length_of_typeSigsOf hvs
        simp only [List.length_append, List.length_cons, List.length_nil] at hcount
        omega
  · rcases gives_parametersOf h with ⟨hne, -⟩ | ⟨xs, m, ys, w₁, heq, hm, hxs, hys, hps, hvs⟩
    · exact absurd (hne (.ofElement .sentinel) (by simp)) (by decide)
    · rcases List.append_eq_append_iff.1 heq with ⟨zs, rfl, hzs⟩ | ⟨zs, rfl, hzs⟩
      · cases zs with
        | nil =>
            cases hzs
            rw [List.append_nil] at hps
            exact ⟨w₁, hps, hvs⟩
        | cons z zs =>
            cases hzs
            exact absurd (hxs (.ofElement .sentinel) (by simp)) (by decide)
      · cases zs with
        | nil =>
            cases hzs
            rw [List.append_nil]
            exact ⟨w₁, hps, hvs⟩
        | cons z zs =>
            cases hzs
            exact absurd (hys (.ofElement .sentinel) (by simp)) (by decide)

/-! ### Signatures with a calling convention -/

/-- The flags of a first octet, put down and read, make up the octet together with its calling convention. -/
theorem flagsOf_flagsTree (raw : UInt8) :
    ∃ f, flagsOf (Int32.ofNat (raw.toNat - (raw &&& CallingConvention.mask).toNat)) = some f ∧
      raw &&& CallingConvention.mask ||| f = raw ∧
      f &&& CallingConvention.genericFlag = raw &&& CallingConvention.genericFlag := by
  have all : ∀ raw : UInt8,
      (flagsOf (Int32.ofNat (raw.toNat - (raw &&& CallingConvention.mask).toNat))).any (fun f =>
        raw &&& CallingConvention.mask ||| f == raw &&
        f &&& CallingConvention.genericFlag == raw &&& CallingConvention.genericFlag) = true := by
    decide +kernel
  obtain ⟨f, hf, h⟩ := (Option.any_eq_true _ _).1 (all raw)
  rw [Bool.and_eq_true, beq_iff_eq, beq_iff_eq] at h
  exact ⟨f, hf, h⟩

/-- Types behind their number. -/
theorem gives_countedTypesOf {k : CallingConvention} {n : SigTree} {ts : List SigTree}
    {us : List TypeSig} (h : Gives (countedTypesOf c k (n :: ts)) w us w') :
    Gives (typeSigsOf c ts) w us w' := by
  rw [countedTypesOf_eq] at h
  obtain ⟨count, -, h⟩ := gives_bind_argument.1 h
  obtain ⟨_, -, h⟩ := gives_bind_argument.1 h
  exact h

theorem length_parameterTrees (ps vs : List SigTree) :
    ps.length + vs.length ≤ (parameterTrees ps vs).length := by
  unfold parameterTrees
  split
  · next h =>
      rw [List.isEmpty_iff.1 h, List.length_nil]
      exact Nat.le_refl _
  · rw [List.length_append, List.length_cons]
    omega

/-- A method signature has the parts that are put down. -/
theorem gives_methodSigOf {k : CallingConvention} (hk : k.isMethodLike = true) {f : UInt8}
    (hf : f &&& CallingConvention.mask = 0) {g : UInt32} {i : Nat} {r : SigTree}
    {ps vs : List SigTree} {sig : CallSig} (h : Gives (methodSigOf c k f g i
      (Reading.lengthTree (ps ++ vs) :: r :: parameterTrees ps vs)) w sig w') :
    ∃ r' w₁ ps' w₂ vs', Gives (typeSigOf c r) w r' w₁ ∧ Gives (typeSigsOf c ps) w₁ ps' w₂ ∧
      Gives (typeSigsOf c vs) w₂ vs' w' ∧
      sig = .method (k.code ||| f) (CallingConvention.isMethodOrPropertyRaw_or hk hf) g r' ps' vs' := by
  rw [methodSigOf_eq hk hf] at h
  obtain ⟨count, hcount, h⟩ := gives_bind_argument.1 h
  obtain ⟨r', w₁, hr, h⟩ := gives_bind.1 h
  obtain ⟨⟨ps', vs'⟩, w₂, hparams, h⟩ := gives_bind.1 h
  obtain ⟨hsame, h⟩ := gives_guard.1 h
  obtain ⟨rfl, rfl⟩ := gives_pure.1 h
  have hle := length_of_parametersOf hparams
  have htrees := length_parameterTrees ps vs
  have hmod := length_of_unsignedOf hcount
  have hlt := lt_of_unsignedOf hcount
  rw [List.length_append] at hmod
  rw [Decidable.not_not] at hsame
  -- no more parameters than can be counted
  have hall : ps'.length + vs'.length = ps.length + vs.length := by
    have := Nat.div_add_mod (ps.length + vs.length) 0x100000000
    omega
  obtain ⟨w₃, hps, hvs⟩ := gives_parameterTrees hparams hall
  exact ⟨r', w₁, ps', w₃, vs', hr, hps, hvs, rfl⟩

/-- The first octet of a method signature is read as it has been put down, and the number of generic parameters if it is announced. -/
theorem gives_callSigOf_method {raw : UInt8} (hraw : CallingConvention.isMethodLikeRaw raw = true)
    {count : UInt32} {ls : List SigTree} {sig : CallSig}
    (h : Gives (callSigOf c (.callSig (raw &&& CallingConvention.mask)
      (Reading.flagsTree raw :: Reading.genericTrees raw count ++ ls))) w sig w') :
    ∃ k f g i, CallingConvention.isMethodLike k = true ∧ f &&& CallingConvention.mask = 0 ∧
      k.code ||| f = raw ∧ Reading.genericTrees raw g = Reading.genericTrees raw count ∧
      Gives (methodSigOf c k f g i ls) w sig w' := by
  obtain ⟨f, hf, hor, hgeneric⟩ := flagsOf_flagsTree raw
  obtain ⟨k, hk, hlike⟩ := CallingConvention.exists_of_isMethodLikeRaw hraw
  have hcode : k.code ||| f = raw := by rw [CallingConvention.code_of_ofCode? hk, hor]
  have hmask := mask_of_flagsOf hf
  rw [List.cons_append, callSigOf_eq] at h
  rw [hk] at h
  obtain ⟨n, hn, h⟩ := gives_bind_argument.1 h
  cases hn
  rw [hf] at h
  dsimp only at h
  rw [if_pos hlike] at h
  split at h
  · next hflag =>
      have hnone : ∀ g, Reading.genericTrees raw g = [] := fun g => by
        rw [Reading.genericTrees, Reading.isGenericRaw, ← hgeneric, hflag]
        rfl
      rw [hnone count, List.nil_append] at h
      exact ⟨k, f, 0, 1, hlike, hmask, hcode, by rw [hnone, hnone], h⟩
  · next hflag =>
      have hsome : Reading.genericTrees raw count = [.int32 count.toInt32] := by
        rw [Reading.genericTrees, Reading.isGenericRaw, ← hgeneric, if_pos (by simpa using hflag)]
      rw [hsome] at h
      obtain ⟨g, hg, hsig⟩ := gives_bind_argument.1 h
      exact ⟨k, f, g, 2, hlike, hmask, hcode, by rw [eq_of_unsignedOf hg], hsig⟩

end CilCatalog
