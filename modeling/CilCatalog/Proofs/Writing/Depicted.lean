import CilCatalog.Proofs.Depicts
import CilCatalog.Proofs.SigTree.Format
import CilCatalog.Proofs.Writing.References
import CilCatalog.Proofs.Writing.Signature

/-!
# Trees depict what they are written as

A tree that has a text depicts the signature that is made of it (`depicted`), where each of its tokens stands for the row that is remembered of the type under it.  The text is of importance for nothing but the marker between parameters: in a tree that has one, the marker has no arguments, and something is behind it.
-/

namespace CilCatalog

open Live Writing
open WriteState (Keeping)
open Reading (flagsTree genericTrees lengthTree parameterTrees)

/-! ### First octets -/

section Flags

variable {n : Int32} {f : UInt8}

theorem eq_of_flagsOf (h : flagsOf n = some f) : n = Int32.ofNat f.toNat := by
  unfold flagsOf at h
  split at h
  · next hn =>
      dsimp only at h
      split at h
      · cases h
        obtain ⟨h₀, h₁⟩ := hn
        rw [Int32.le_iff_toInt_le] at h₀ h₁
        change 0 ≤ n.toInt at h₀
        change n.toInt ≤ 255 at h₁
        have hnat : (UInt8.ofNat n.toNatClampNeg).toNat = n.toNatClampNeg :=
          Nat.mod_eq_of_lt (by rw [Int32.toNatClampNeg]; omega)
        rw [hnat, ← Int32.toInt_inj, Int32.toInt_ofNat_of_lt (by rw [Int32.toNatClampNeg]; omega),
          Int32.toNatClampNeg]
        omega
      · exact nomatch h
  · exact nomatch h

/-- The flags are what is left of a first octet without its calling convention. -/
theorem flagsTree_or (k : CallingConvention) (h : flagsOf n = some f) :
    flagsTree (k.code ||| f) = .int32 n := by
  have all : ∀ f : UInt8, f &&& CallingConvention.mask = 0 →
      (k.code ||| f).toNat - ((k.code ||| f) &&& CallingConvention.mask).toNat = f.toNat := by
    cases k <;> decide +kernel
  rw [eq_of_flagsOf h, flagsTree, all f (mask_of_flagsOf h)]

theorem mask_or (k : CallingConvention) (h : f &&& CallingConvention.mask = 0) :
    (k.code ||| f) &&& CallingConvention.mask = k.code :=
  (CallingConvention.code_of_ofCode? (CallingConvention.ofRaw?_or k h)).symm

theorem isGenericRaw_or (k : CallingConvention) (f : UInt8) :
    Reading.isGenericRaw (k.code ||| f) = (f &&& CallingConvention.genericFlag != 0) := by
  revert f
  cases k <;> decide +kernel

theorem hasGenericFlag_of_flagsOf (h : flagsOf n = some f) :
    hasGenericFlag n = (f &&& CallingConvention.genericFlag != 0) := by
  have all : ∀ f : UInt8, hasGenericFlag (Int32.ofNat f.toNat) =
      (f &&& CallingConvention.genericFlag != 0) := by decide +kernel
  rw [eq_of_flagsOf h, all]

end Flags

/-! ### Parameters -/

namespace SigTree

/-- In a tree that has a text, the marker has no arguments. -/
theorem eq_sentinel {t : SigTree} (ht : t.Formattable) (hs : t.isSentinel = true) :
    t = .ofElement .sentinel := by
  obtain ⟨s, hs'⟩ := ht
  cases t with
  | typeSig code as =>
      obtain rfl : code = ElementType.sentinel.code := beq_iff_eq.1 hs
      rw [format] at hs'
      obtain ⟨e, hc, -⟩ := bind_eq_ok.1 hs'
      obtain ⟨he, ⟨-, rfl⟩ | ⟨hleaf, -⟩⟩ := checkTypeSig_eq_ok.1 hc
      · rfl
      · cases (ElementType.ofCode?_code .sentinel).symm.trans he
        exact nomatch hleaf
  | _ => exact nomatch hs

/-- The arguments of a signature that has a text fit its calling convention. -/
theorem fits_of_formattable {code : UInt8} {as : List SigTree}
    (h : (SigTree.callSig code as).Formattable) :
    ∃ k flags rest, CallingConvention.ofCode? code = some k ∧ as = .int32 flags :: rest ∧
      (CallingConvention.shape flags k).Fits rest := by
  obtain ⟨s, hs⟩ := h
  rw [format] at hs
  obtain ⟨k, hc, -⟩ := bind_eq_ok.1 hs
  obtain ⟨hk, flags, rest, rfl, hf⟩ := checkCallSig_eq_ok.1 hc
  exact ⟨k, flags, rest, hk, rfl, hf⟩

end SigTree

theorem CallingConvention.shape_of_isMethodLike {k : CallingConvention} {flags : Int32}
    (hk : k.isMethodLike = true) :
    k.shape flags = if hasGenericFlag flags then [.count, .parameters] else [.parameters] := by
  cases k <;> first | rfl | exact nomatch hk

theorem Shape.fits_cons {s : Slot} {r : Shape} {as : List SigTree} (h : Fits (s :: r) as) :
    ∃ bs bs', as = bs ++ bs' ∧ s.Takes bs ∧ Fits r bs' := by
  cases h with
  | cons ha hr => exact ⟨_, _, rfl, ha, hr⟩

theorem Shape.parameters_of_fits {a r : SigTree} {ts : List SigTree}
    (h : Fits [.parameters] (a :: r :: ts)) : ∃ n, Parameters n ts := by
  obtain ⟨bs, bs', heq, hb, hb'⟩ := fits_cons h
  cases hb'
  rw [List.append_nil] at heq
  subst heq
  cases hb with
  | parameters _ hp => exact ⟨_, hp⟩

theorem Shape.fits_tail_of_count {r : Shape} {a : SigTree} {as : List SigTree}
    (h : Fits (.count :: r) (a :: as)) : Fits r as := by
  obtain ⟨bs, bs', heq, hb, hb'⟩ := fits_cons h
  cases hb with
  | count =>
      cases heq
      exact hb'

/-- Where parameters are split, something is behind the marker. -/
theorem Parameters.ne_nil {n : Nat} {m : SigTree} {ps vs : List SigTree}
    (h : Parameters n (ps ++ m :: vs)) (hm : m.isSentinel = true)
    (hv : ∀ p ∈ vs, p.isSentinel = false) : vs ≠ [] := by
  rintro rfl
  generalize hts : ps ++ [m] = ts at h
  cases h with
  | plain _ hp =>
      subst hts
      rw [hp m (by simp)] at hm
      exact nomatch hm
  | @variadic m' ps' vs' _ _ _ hne hv' =>
      -- the marker is last, and so behind the other one
      have hlast := congrArg List.getLast? hts
      obtain ⟨v, hlast'⟩ : ∃ v, vs'.getLast? = some v := ⟨_, List.getLast?_eq_some_getLast hne⟩
      rw [List.getLast?_append, List.getLast?_append, List.getLast?_singleton,
        List.getLast?_cons, hlast'] at hlast
      obtain rfl : m = v := Option.some.inj hlast
      rw [hv' m (List.mem_of_getLast? hlast')] at hm
      exact nomatch hm

/-! ### Signatures -/

section Signatures

variable {I : WriteState → Prop} [Keeping I] {w w' : WriteState} {c : Catalog}

/-- Whatever the tree is written as, the tree depicts it. -/
structure Depicted (I : WriteState → Prop) (c : Catalog) (t : SigTree) : Prop where
  row : ∀ {w}, Runs I w (rowOfTree c t) fun w' r => DepictsRow (w'.Resolves c .type) t r
  type : ∀ {w}, Runs I w (typeSigOf c t) fun w' sig => Depicts (w'.Resolves c .type) t sig
  call : ∀ {w}, Runs I w (callSigOf c t) fun w' sig => DepictsCall (w'.Resolves c .type) t sig

theorem DepictsRow.leads {t : SigTree} {r : Row} (h : DepictsRow (w.Resolves c .type) t r)
    (hl : w.Leads w') : DepictsRow (w'.Resolves c .type) t r := h.mono fun h => h.leads hl

theorem Depicts.leads {t : SigTree} {sig : TypeSig} (h : Depicts (w.Resolves c .type) t sig)
    (hl : w.Leads w') : Depicts (w'.Resolves c .type) t sig := h.mono fun h => h.leads hl

theorem DepictsAll.leads {ts : List SigTree} {sigs : List TypeSig}
    (h : DepictsAll (w.Resolves c .type) ts sigs) (hl : w.Leads w') :
    DepictsAll (w'.Resolves c .type) ts sigs := h.mono fun h => h.leads hl

namespace Depicted

open Runs (bind_argument refuse guard ite)

theorem typeSigsOf {as : List SigTree} (h : ∀ a ∈ as, Depicted I c a) :
    Runs I w (Writing.typeSigsOf c as) fun w' sigs => DepictsAll (w'.Resolves c .type) as sigs := by
  induction as generalizing w with
  | nil => exact .pure .nil
  | cons a as ih =>
      rw [List.forall_mem_cons] at h
      exact h.1.type.bind fun _ ha => (ih h.2).bind fun hl has => .pure (.cons (ha.leads hl) has)

theorem typeSigOfCode {code : UInt8} {as : List SigTree} (h : ∀ a ∈ as, Depicted I c a) :
    Runs I w (Writing.typeSigOfCode c code as) fun w' sig =>
      Depicts (w'.Resolves c .type) (.typeSig code as) sig := by
  rw [Writing.typeSigOfCode_eq]
  split
  · exact refuse
  · next e he =>
    obtain rfl := ElementType.code_of_ofCode? he
    split
    · next hleaf =>
        refine bind_argument fun hcount => .pure ?_
        obtain rfl := List.length_eq_zero_iff.1 (eq_of_checkCount hcount).symm
        exact .leaf e hleaf
    · split
      all_goals first
        | exact refuse
        | simp only [List.forall_mem_cons] at h
      · exact h.1.type.bind fun _ ht => .pure (.wrapper .ptr ht)
      · exact h.1.type.bind fun _ ht => .pure (.wrapper .byRef ht)
      · exact h.1.type.bind fun _ ht => .pure (.wrapper .szArray ht)
      · exact h.1.type.bind fun _ ht => .pure (.wrapper .pinned ht)
      · exact h.1.call.bind fun _ ht => ite (fun _ => .pure (.fnPtr ht)) fun _ => refuse
      · exact (Runs.typeOfToken c _).bind fun _ hk => .pure (.named false hk.1)
      · exact (Runs.typeOfToken c _).bind fun _ hk => .pure (.named true hk.1)
      · refine bind_argument fun hn => .pure ?_
        rw [tree_of_unsignedOf hn]
        exact .generic false _
      · refine bind_argument fun hn => .pure ?_
        rw [tree_of_unsignedOf hn]
        exact .generic true _
      · refine h.1.type.bind fun _ ht => bind_argument fun hshape => .pure ?_
        rw [eq_of_ofArguments_ok hshape]
        exact .array ht _ _ _
      · exact h.1.type.bind fun _ _ => refuse
      · refine h.1.type.bind fun _ ht => bind_argument fun hn => bind_argument fun hcheck =>
          (typeSigsOf h.2.2).bind fun hl hts => .pure ?_
        have hlength := eq_of_checkCount hcheck
        rw [lengthTree_of_unsignedOf hn ((Nat.add_left_cancel hlength).trans hts.length_eq)]
        exact .genericInst (ht.leads hl) hts
      · refine h.1.type.bind fun _ ht => bind_argument fun hn => .pure ?_
        rw [tree_of_unsignedOf hn]
        exact .valueArray ht _
      · exact h.1.row.bind fun _ hm => h.2.1.type.bind fun hl ht =>
          .pure (.modifier true (hm.leads hl) ht)
      · exact h.1.row.bind fun _ hm => h.2.1.type.bind fun hl ht =>
          .pure (.modifier false (hm.leads hl) ht)
      · refine bind_argument fun hn => h.2.1.type.bind fun _ ht => .pure ?_
        rw [tree_of_unsignedOf hn]
        exact .module _ ht

/-- The parameters of a tree that has a text are split at the marker. -/
theorem parametersOf {n : Nat} {as : List SigTree} (h : ∀ a ∈ as, Depicted I c a)
    (hform : ∀ a ∈ as, a.Formattable) (hp : Parameters n as) :
    Runs I w (Writing.parametersOf c false as) fun w' p => ∃ ps vs, as = parameterTrees ps vs ∧
      DepictsAll (w'.Resolves c .type) ps p.1 ∧ DepictsAll (w'.Resolves c .type) vs p.2 := by
  refine (Runs.parametersOf c (fun a _ => treeRuns (I := I) c w a) (.refl w)).of_gives fun {p w'} hw hg => ?_
  obtain ⟨params, after⟩ := p
  rcases gives_parametersOf hg with ⟨-, rfl, hps⟩ | ⟨ps, m, vs, w₁, rfl, hm, -, hvs, hg₁, hg₂⟩
  · refine ⟨as, [], rfl, ?_, .nil⟩
    exact ((typeSigsOf h).leads hw hps).2
  · have hne := hp.ne_nil hm hvs
    obtain rfl := SigTree.eq_sentinel (hform m (by simp)) hm
    obtain ⟨hl₁, h₁⟩ := (typeSigsOf fun a ha => h a (by simp [ha])).leads hw hg₁
    obtain ⟨hl₂, h₂⟩ := (typeSigsOf fun a ha => h a (by simp [ha])).leads (hl₁.keeps hw) hg₂
    refine ⟨ps, vs, ?_, h₁.leads hl₂, h₂⟩
    rw [parameterTrees, if_neg (by simpa using hne)]

theorem methodSigOf {k : CallingConvention} (hk : k.isMethodLike = true) {f : UInt8}
    (hf : f &&& CallingConvention.mask = 0) {g : UInt32} {i : Nat} {as : List SigTree}
    (h : ∀ a ∈ as, Depicted I c a) (hform : ∀ a ∈ as, a.Formattable)
    (hfits : Shape.Fits [.parameters] as) :
    Runs I w (Writing.methodSigOf c k f g i as) fun w' sig =>
      DepictsCall (w'.Resolves c .type) (.callSig k.code (flagsTree (k.code ||| f) ::
        genericTrees (k.code ||| f) g ++ as)) sig := by
  rw [Writing.methodSigOf_eq hk hf]
  split
  · exact refuse
  · exact bind_argument fun _ => refuse
  · next n r ts =>
      obtain ⟨m, hp⟩ := Shape.parameters_of_fits hfits
      simp only [List.forall_mem_cons] at h hform
      refine bind_argument fun hn => h.2.1.type.bind fun _ hr =>
        (parametersOf h.2.2 hform.2.2 hp).bind fun {p w'} hl hps => guard fun hcount => .pure ?_
      obtain ⟨ps, vs, rfl, hps, hvs⟩ := hps
      have hlength : (ps ++ vs).length = p.1.length + p.2.length := by
        rw [List.length_append, hps.length_eq, hvs.length_eq]
      rw [lengthTree_of_unsignedOf hn ((not_not.1 hcount).symm.trans hlength.symm)]
      have hcall := DepictsCall.method (CallingConvention.isMethodLikeRaw_or hk hf) g (hr.leads hl)
        hps hvs
      rwa [mask_or k hf] at hcall

theorem countedTypesOf {k : CallingConvention} {as : List SigTree} (h : ∀ a ∈ as, Depicted I c a) :
    Runs I w (Writing.countedTypesOf c k as) fun w' sigs =>
      ∃ ts, as = lengthTree sigs :: ts ∧ DepictsAll (w'.Resolves c .type) ts sigs := by
  rw [Writing.countedTypesOf_eq]
  split
  · exact refuse
  · next n ts =>
      rw [List.forall_mem_cons] at h
      refine bind_argument fun hn => bind_argument fun hcheck => (typeSigsOf h.2).imp fun hts => ?_
      have hlength := Nat.add_left_cancel (eq_of_checkCount hcheck)
      exact ⟨ts, by rw [lengthTree_of_unsignedOf hn (hlength.trans hts.length_eq)], hts⟩

theorem callSigOf {code : UInt8} {as : List SigTree} (h : ∀ a ∈ as, Depicted I c a)
    (hform : (SigTree.callSig code as).Formattable) :
    Runs I w (Writing.callSigOf c (.callSig code as)) fun w' sig =>
      DepictsCall (w'.Resolves c .type) (.callSig code as) sig := by
  have hargs : ∀ a ∈ as, a.Formattable := hform.args
  obtain ⟨k, flags, rest, hcode, rfl, hfits⟩ := SigTree.fits_of_formattable hform
  obtain rfl := CallingConvention.code_of_ofCode? hcode
  rw [List.forall_mem_cons] at h hargs
  rw [Writing.callSigOf_eq, hcode]
  refine bind_argument fun hn => ?_
  cases hn
  cases hf : flagsOf flags with
  | none => exact refuse
  | some f =>
    dsimp only
    split
    · next hk =>
      rw [CallingConvention.shape_of_isMethodLike hk, hasGenericFlag_of_flagsOf hf] at hfits
      rw [← flagsTree_or k hf]
      split
      · next hflag =>
          rw [hflag] at hfits
          refine (methodSigOf hk (mask_of_flagsOf hf) h.2 hargs.2 hfits).imp fun hsig => ?_
          rwa [genericTrees, isGenericRaw_or, hflag] at hsig
      · next hflag =>
          rw [if_pos (by simpa using hflag)] at hfits
          split
          · exact refuse
          · next n as =>
              simp only [List.forall_mem_cons] at h hargs
              refine bind_argument fun hn => (methodSigOf hk (mask_of_flagsOf hf) h.2.2 hargs.2.2
                (Shape.fits_tail_of_count hfits)).imp fun hsig => ?_
              rw [genericTrees, isGenericRaw_or, if_pos (by simpa using hflag)] at hsig
              rwa [tree_of_unsignedOf hn]
    · next hk =>
      refine ite (fun _ => refuse) fun hflags => ?_
      obtain rfl : flags = 0 := by rw [eq_of_flagsOf hf, not_not.1 hflags]; rfl
      split
      · simp only [List.forall_mem_cons] at h
        exact h.2.1.type.bind fun _ ht => .pure (.field ht)
      · exact refuse
      · refine (countedTypesOf h.2).bind fun _ hts => .pure ?_
        obtain ⟨ts, rfl, hts⟩ := hts
        exact .locals hts
      · next hfield hlocals _ =>
          obtain rfl : k = .genericInst := by
            cases k <;> first | rfl | exact absurd rfl hk | exact (hfield rfl).elim |
              exact (hlocals rfl).elim
          refine (countedTypesOf h.2).bind fun _ hts => .pure ?_
          obtain ⟨ts, rfl, hts⟩ := hts
          exact .inst hts

end Depicted

/-- What a tree that has a text is written as, is what it depicts. -/
theorem depicted (c : Catalog) {t : SigTree} (ht : t.Formattable) : Depicted I c t := by
  induction t using SigTree.induction with
  | h t ih =>
      have hargs : ∀ a ∈ t.args, Depicted I c a := fun a ha => ih a ha (ht.args a ha)
      constructor
      · intro w
        unfold rowOfTree
        split
        · exact (Runs.typeOfToken c _).imp fun h => .named h.1
        · refine (Depicted.typeSigOfCode hargs).bind fun {sig w₁} _ h => ?_
          exact Runs.making (.typeSpec sig) fun _ => .spec h
        · exact Runs.refuse
      · intro w
        unfold typeSigOf
        split
        · exact Depicted.typeSigOfCode hargs
        · exact Runs.refuse
      · intro w
        cases t with
        | callSig => exact Depicted.callSigOf hargs ht
        | _ => exact Runs.refuse

end Signatures

end CilCatalog
