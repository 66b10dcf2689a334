import CilCatalog.Proofs.Writing.Depicted

/-!
# Lists behind their lengths

A reader puts the length of a list down in front of it, as a number of 32 bits with a sign, and the text form counts the list again.  They agree exactly if the length has no more than 31 bits.  A longer list does not fit by chance either: its length comes round to a number that is smaller by 2³² at least, and what is then left over is more than a second length could count.

The lemmas go through an argument list from left to right (`Shape.fits_node_cons` and those behind it), up to the three slots that take a list.
-/

namespace CilCatalog

open Reading (lengthTree parameterTrees)

/-! ### Lengths as numbers -/

theorem toInt_ofNat_eq {n : Nat} : (Int32.ofNat n).toInt = (n : Int).bmod 4294967296 :=
  Int32.toInt_ofNat'

theorem toInt_ofNat_iff {n : Nat} : (Int32.ofNat n).toInt = n ↔ n < 0x80000000 := by
  rw [toInt_ofNat_eq, Int.bmod_def]
  omega

/-- A length that is not too far off is the one that was put down. -/
theorem eq_of_toInt_ofNat {n k : Nat} (h : (Int32.ofNat n).toInt = k) (hn : n < k + 0x100000000) :
    n = k ∧ n < 0x80000000 := by
  rw [toInt_ofNat_eq, Int.bmod_def] at h
  omega

theorem toInt_toInt32_nonneg {n : UInt32} : 0 ≤ n.toInt32.toInt ↔ n.toNat < 0x80000000 := by
  have bits : n.toInt32.toInt = (n.toNat : Int).bmod 4294967296 := by
    rw [← Int32.toInt_toBitVec, BitVec.toInt_eq_toNat_bmod]
    rfl
  have small := n.toNat_lt
  rw [bits, Int.bmod_def]
  omega

/-! ### Arguments from left to right -/

namespace Shape

variable {r : Shape} {a ret : SigTree} {as : List SigTree} {v : Int32}

theorem fits_nil_iff : Fits [] as ↔ as = [] := by
  constructor
  · intro h
    cases h
    rfl
  · rintro rfl
    exact .nil

theorem fits_node_cons : Fits (.node :: r) (a :: as) ↔ Fits r as := by
  constructor
  · intro h
    obtain ⟨bs, rest, heq, hb, hr⟩ := fits_cons h
    cases hb
    cases heq
    exact hr
  · intro h
    exact .cons (.node a) h

theorem fits_integer_cons : Fits (.integer :: r) (.int32 v :: as) ↔ Fits r as := by
  constructor
  · intro h
    obtain ⟨bs, rest, heq, hb, hr⟩ := fits_cons h
    cases hb
    cases heq
    exact hr
  · intro h
    exact .cons (.integer v) h

theorem fits_count_cons : Fits (.count :: r) (.int32 v :: as) ↔ 0 ≤ v.toInt ∧ Fits r as := by
  constructor
  · intro h
    obtain ⟨bs, rest, heq, hb, hr⟩ := fits_cons h
    cases hb with
    | count hv =>
        cases heq
        exact ⟨hv, hr⟩
  · rintro ⟨hv, hr⟩
    exact .cons (.count hv) hr

theorem fits_integers_cons : Fits (.integers :: r) (.int32 v :: as) ↔
    ∃ (vs : List Int32) (rest : List SigTree),
      as = vs.map .int32 ++ rest ∧ v.toInt = vs.length ∧ Fits r rest := by
  constructor
  · intro h
    obtain ⟨bs, rest, heq, hb, hr⟩ := fits_cons h
    cases hb with
    | @integers _ vs hv =>
        cases heq
        exact ⟨vs, rest, rfl, hv, hr⟩
  · rintro ⟨vs, rest, rfl, hv, hr⟩
    exact .cons (.integers hv) hr

theorem fits_nodes : Fits [.nodes] (.int32 v :: as) ↔ v.toInt = as.length := by
  constructor
  · intro h
    obtain ⟨bs, rest, heq, hb, hr⟩ := fits_cons h
    cases hr
    cases hb with
    | nodes hv =>
        rw [List.append_nil] at heq
        cases heq
        exact hv
  · intro h
    have fits := Fits.cons (.nodes h) .nil
    rwa [List.append_nil] at fits

theorem fits_parameters : Fits [.parameters] (.int32 v :: ret :: as) ↔
    ∃ n : Nat, v.toInt = n ∧ Parameters n as := by
  constructor
  · intro h
    obtain ⟨bs, rest, heq, hb, hr⟩ := fits_cons h
    cases hr
    cases hb with
    | parameters hv hp =>
        rw [List.append_nil] at heq
        cases heq
        exact ⟨_, hv, hp⟩
  · rintro ⟨n, hv, hp⟩
    have takes : Slot.parameters.Takes (.int32 v :: ret :: as) := .parameters hv hp
    have fits := Fits.cons takes .nil
    rwa [List.append_nil] at fits

/-! ### What a reader puts down -/

theorem fits_lengthTree {α : Type} {bs : List α} (h : as.length = bs.length) :
    Fits [.nodes] (lengthTree bs :: as) ↔ bs.length < 0x80000000 := by
  rw [lengthTree, fits_nodes, h, toInt_ofNat_iff]

/-- The sizes and the lower bounds of an array fit if both can be counted. -/
theorem fits_dimensions (ms ns : List Int32) :
    Fits [.integers, .integers] (lengthTree ms :: ms.map .int32 ++ (lengthTree ns :: ns.map .int32)) ↔
      ms.length < 0x80000000 ∧ ns.length < 0x80000000 := by
  constructor
  · intro h
    rw [List.cons_append, lengthTree, fits_integers_cons] at h
    obtain ⟨vs, rest, heq, hv, hr⟩ := h
    have lengths := congrArg List.length heq
    simp only [List.length_append, List.length_map, List.length_cons] at lengths
    cases rest with
    | nil => exact absurd (fits_cons hr) (by
        rintro ⟨bs, bs', hnil, hb, -⟩
        exact hb.ne_nil (List.append_eq_nil_iff.1 hnil.symm).1)
    | cons a rest =>
        obtain ⟨b, bs', hrest, hb, hnil⟩ := fits_cons hr
        cases hnil
        cases hb with
        | @integers w ws hw =>
            rw [List.append_nil] at hrest
            obtain ⟨rfl, rfl⟩ := List.cons.inj hrest
            rw [List.length_cons, List.length_map] at lengths
            have few := w.toInt_lt
            -- what is counted here is not enough for a length that has come round
            obtain ⟨hm, short⟩ := eq_of_toInt_ofNat hv (by omega)
            have hn : ns.length = ws.length := by omega
            obtain ⟨-, hlast⟩ := List.append_inj heq (by rw [List.length_map, List.length_map, hm])
            rw [SigTree.int32.inj (List.cons.inj hlast).1.symm] at hw
            exact ⟨short, (eq_of_toInt_ofNat hw (by omega)).2⟩
  · rintro ⟨hm, hn⟩
    have lower : Slot.integers.Takes (lengthTree ns :: ns.map .int32) :=
      .integers (toInt_ofNat_iff.2 hn)
    have upper : Slot.integers.Takes (lengthTree ms :: ms.map .int32) :=
      .integers (toInt_ofNat_iff.2 hm)
    have fits := Fits.cons upper (.cons lower .nil)
    rwa [List.append_nil] at fits

end Shape

/-! ### Parameters -/

/-- The marker in front of a parameter is one argument more. -/
theorem Parameters.length_le {n : Nat} {as : List SigTree} (h : Parameters n as) :
    as.length ≤ n + 1 := by
  cases h with
  | plain hn => omega
  | variadic hn =>
      rw [List.length_append, List.length_cons]
      omega

/-- What is counted are the arguments that are no marker. -/
theorem Parameters.countP {n : Nat} {as : List SigTree} (h : Parameters n as) :
    as.countP (!·.isSentinel) = n := by
  have all : ∀ {ps : List SigTree}, (∀ p ∈ ps, p.isSentinel = false) →
      ps.countP (!·.isSentinel) = ps.length := by
    intro ps hps
    rw [List.countP_eq_length]
    intro p hp
    rw [hps p hp]
    rfl
  cases h with
  | plain hn hp => rw [all hp, hn]
  | variadic hn hp hm _ hv => simp [List.countP_append, all hp, all hv, hm, hn]

/-- The marker that a reader puts between parameters is not counted. -/
theorem countP_parameterTrees (ps vs : List SigTree) :
    (parameterTrees ps vs).countP (!·.isSentinel) = (ps ++ vs).countP (!·.isSentinel) := by
  have marker : (SigTree.ofElement .sentinel).isSentinel = true := rfl
  unfold parameterTrees
  split
  · next h => rw [List.isEmpty_iff.1 h, List.append_nil]
  · simp [List.countP_append, marker]

/-- Parameters that are no markers are taken with the one marker that stands between them. -/
theorem parameters_parameterTrees {ps vs : List SigTree}
    (h : ∀ p ∈ ps ++ vs, p.isSentinel = false) :
    Parameters (ps ++ vs).length (parameterTrees ps vs) := by
  rw [List.forall_mem_append] at h
  unfold parameterTrees
  split
  · next hnil =>
      obtain rfl := List.isEmpty_iff.1 hnil
      rw [List.append_nil]
      exact .plain rfl h.1
  · next hne =>
      refine .variadic ?_ h.1 rfl ?_ h.2
      · rw [List.length_append]
      · rintro rfl
        exact hne rfl

/-- The parameters that a reader puts down fit if they can be counted and none of them is a marker. -/
theorem Shape.fits_parameterTrees (ret : SigTree) (ps vs : List SigTree) :
    Fits [.parameters] (lengthTree (ps ++ vs) :: ret :: parameterTrees ps vs) ↔
      (ps ++ vs).length < 0x80000000 ∧ ∀ p ∈ ps ++ vs, p.isSentinel = false := by
  rw [lengthTree, fits_parameters]
  constructor
  · rintro ⟨n, hn, hp⟩
    have few := (Int32.ofNat (ps ++ vs).length).toInt_lt
    have length := hp.length_le
    have put := length_parameterTrees ps vs
    rw [← List.length_append] at put
    obtain ⟨rfl, short⟩ := eq_of_toInt_ofNat hn (by omega)
    have counted := hp.countP
    rw [countP_parameterTrees, List.countP_eq_length] at counted
    refine ⟨short, fun p hmem => ?_⟩
    simpa using counted p hmem
  · rintro ⟨short, unmarked⟩
    exact ⟨_, toInt_ofNat_iff.2 short, parameters_parameterTrees unmarked⟩

/-! ### Nodes -/

namespace SigTree

variable {as : List SigTree}

/-- An element type with arguments has a text if they fit it and have texts. -/
theorem formattable_ofElement_iff {e : ElementType} (he : e.isLeaf = false) :
    (ofElement e as).Formattable ↔ e.shape.Fits as ∧ ∀ a ∈ as, a.Formattable := by
  constructor
  · intro h
    refine ⟨?_, h.args⟩
    obtain ⟨s, hs⟩ := h
    rw [ofElement, format] at hs
    obtain ⟨f, hf, -⟩ := bind_eq_ok.1 hs
    obtain ⟨hcode, fits⟩ := checkTypeSig_eq_ok.1 hf
    cases (ElementType.ofCode?_code e).symm.trans hcode
    obtain ⟨leaf, -⟩ | ⟨-, fits⟩ := fits
    · rw [he] at leaf
      cases leaf
    · exact fits
  · rintro ⟨fits, args⟩
    exact formattable_ofElement (.inr ⟨he, fits⟩) args

/-- A calling convention has a text if the arguments behind the flags fit it and have texts. -/
theorem formattable_callSig_iff {code : UInt8} {k : CallingConvention} {flags : Int32}
    (hk : CallingConvention.ofCode? code = some k) :
    (callSig code (.int32 flags :: as)).Formattable ↔
      (k.shape flags).Fits as ∧ ∀ a ∈ as, a.Formattable := by
  constructor
  · intro h
    refine ⟨?_, fun a ha => h.args a (List.mem_cons_of_mem _ ha)⟩
    obtain ⟨k', flags', rest, hcode, heq, fits⟩ := fits_of_formattable h
    cases hk.symm.trans hcode
    cases heq
    exact fits
  · rintro ⟨fits, args⟩
    obtain rfl := CallingConvention.code_of_ofCode? hk
    exact formattable_ofConvention fits args

end SigTree

end CilCatalog
