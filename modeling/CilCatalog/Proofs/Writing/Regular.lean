import CilCatalog.Proofs.Writing.Depicted

/-!
# Regular signatures

A tree does not say everything about a signature that it depicts.  A number of generic parameters that is not announced could be any number; the marker could be a parameter of its own; and dimensions could be so many that their number comes round to a smaller one.  None of this happens where a writer makes the signature (`regular`).
-/

namespace CilCatalog

open Live Writing
open WriteState (Keeping)

/-! ### What a tree does not say -/

namespace Live

/-- Whether the signature is that of the marker. -/
def TypeSig.isSentinel : TypeSig → Bool
  | .leaf e _ => e == .sentinel
  | _         => false

mutual

/-- A type specification is regular if its signature is. -/
def Row.Regular : Row → Prop
  | .typeSpec _ t => t.Regular
  | _             => True

/-- The dimensions of arrays are few enough to be counted, and the parts are regular. -/
def TypeSig.Regular : TypeSig → Prop
  | .wrapper _ t       => t.Regular
  | .fnPtr c           => c.Regular
  | .array t _ sizes _ => sizes.length < 0x100000000 ∧ t.Regular
  | .genericInst t as  => t.Regular ∧ TypeSig.AllRegular as
  | .valueArray t _    => t.Regular
  | .modifier _ r t    => r.Regular ∧ t.Regular
  | .module _ t        => t.Regular
  | _                  => True

def TypeSig.AllRegular : List TypeSig → Prop
  | []      => True
  | t :: ts => t.Regular ∧ TypeSig.AllRegular ts

/-- There are generic parameters only if they are announced, no parameter is the marker, and the parts are regular. -/
def CallSig.Regular : CallSig → Prop
  | .null                   => True
  | .method raw _ n t ps vs => (Reading.isGenericRaw raw = false → n = 0) ∧
      (∀ p ∈ ps ++ vs, p.isSentinel = false) ∧
      t.Regular ∧ TypeSig.AllRegular ps ∧ TypeSig.AllRegular vs
  | .field t                => t.Regular
  | .locals ts              => TypeSig.AllRegular ts
  | .inst ts                => TypeSig.AllRegular ts

end

end Live

/-! ### What is written -/

/-- Whatever the tree is written as is regular, and the marker is made of the marker only. -/
structure Regular (I : WriteState → Prop) (c : Catalog) (t : SigTree) : Prop where
  row : ∀ {w}, Runs I w (rowOfTree c t) fun _ r => r.Regular
  type : ∀ {w}, Runs I w (typeSigOf c t) fun _ sig =>
    sig.Regular ∧ (t.isSentinel = false → sig.isSentinel = false)
  call : ∀ {w}, Runs I w (callSigOf c t) fun _ sig => sig.Regular

namespace Regular

open Runs (pure bind_argument refuse guard ite)

variable {I : WriteState → Prop} [Keeping I] {c : Catalog} {w : WriteState}

theorem typeOfToken (t : Token) : Runs I w (Writing.typeOfToken c t) fun _ r => r.Regular :=
  (Runs.typeOfToken c t).kept.imp fun {_ r} h => by
    -- what is remembered of a type is no type specification
    have named := (Keeping.calm h.2).named h.1.1.remembersType
    cases r <;> trivial

theorem typeSigsOf {as : List SigTree} (h : ∀ a ∈ as, Regular I c a) :
    Runs I w (Writing.typeSigsOf c as) fun _ sigs => TypeSig.AllRegular sigs := by
  induction as generalizing w with
  | nil => exact pure trivial
  | cons a as ih =>
      rw [List.forall_mem_cons] at h
      exact h.1.type.bind fun _ ha => (ih h.2).bind fun _ has => pure ⟨ha.1, has⟩

/-- As many sizes are read as a number says. -/
theorem sizes_lt {as : List SigTree} {shape : ArrayShape}
    (h : ArrayShape.ofArguments as = .ok shape) : shape.sizes.length < 0x100000000 := by
  obtain ⟨_, _, _, read, -⟩ := read_of_ofArguments h
  obtain ⟨_, _, m, -, hm⟩ := read.sizes
  rw [← hm]
  exact m.toNat_lt

theorem typeSigOfCode {code : UInt8} {as : List SigTree} (h : ∀ a ∈ as, Regular I c a) :
    Runs I w (Writing.typeSigOfCode c code as) fun _ sig => sig.Regular ∧
      ((SigTree.typeSig code as).isSentinel = false → sig.isSentinel = false) := by
  rw [Writing.typeSigOfCode_eq]
  split
  · exact refuse
  · next e he =>
    obtain rfl := ElementType.code_of_ofCode? he
    split
    · refine bind_argument fun _ => pure ⟨trivial, fun hs => ?_⟩
      exact beq_eq_false_iff_ne.2 (ne_of_apply_ne ElementType.code (beq_eq_false_iff_ne.1 hs))
    · split
      all_goals first
        | exact refuse
        | exact bind_argument fun _ => pure ⟨trivial, fun _ => rfl⟩
        | exact (typeOfToken _).bind fun _ _ => pure ⟨trivial, fun _ => rfl⟩
        | simp only [List.forall_mem_cons] at h
      all_goals first
        | exact h.1.type.bind fun _ ht => pure ⟨ht.1, fun _ => rfl⟩
        | exact h.1.call.bind fun _ ht => ite (fun _ => pure ⟨ht, fun _ => rfl⟩) fun _ => refuse
        | exact h.1.type.bind fun _ ht => bind_argument fun hshape =>
            pure ⟨⟨sizes_lt hshape, ht.1⟩, fun _ => rfl⟩
        | exact h.1.type.bind fun _ ht => bind_argument fun _ => pure ⟨ht.1, fun _ => rfl⟩
        | exact h.1.type.bind fun _ _ => refuse
        | exact h.1.row.bind fun _ hm => h.2.1.type.bind fun _ ht =>
            pure ⟨⟨hm, ht.1⟩, fun _ => rfl⟩
        | exact bind_argument fun _ => h.2.1.type.bind fun _ ht => pure ⟨ht.1, fun _ => rfl⟩
        | exact h.1.type.bind fun _ ht => bind_argument fun _ => bind_argument fun _ =>
            (typeSigsOf h.2.2).bind fun _ hts => pure ⟨⟨ht.1, hts⟩, fun _ => rfl⟩

theorem parametersOf {after : Bool} {as : List SigTree} (h : ∀ a ∈ as, Regular I c a) :
    Runs I w (Writing.parametersOf c after as) fun _ p =>
      (∀ q ∈ p.1 ++ p.2, q.isSentinel = false) ∧
        TypeSig.AllRegular p.1 ∧ TypeSig.AllRegular p.2 := by
  induction as generalizing after w with
  | nil => exact pure ⟨nofun, trivial, trivial⟩
  | cons a as ih =>
      rw [List.forall_mem_cons] at h
      rw [Writing.parametersOf]
      refine ite (fun _ => guard fun _ => ih h.2) fun hs => h.1.type.bind fun _ ha =>
        (ih h.2).bind fun _ has => pure ?_
      have plain := ha.2 (eq_false_of_ne_true hs)
      split
      · refine ⟨fun q hq => ?_, has.2.1, ha.1, has.2.2⟩
        rcases List.mem_append.1 hq with hq | hq
        · exact has.1 q (List.mem_append_left _ hq)
        · rcases List.mem_cons.1 hq with rfl | hq
          · exact plain
          · exact has.1 q (List.mem_append_right _ hq)
      · exact ⟨List.forall_mem_cons.2 ⟨plain, has.1⟩, ⟨ha.1, has.2.1⟩, has.2.2⟩

theorem methodSigOf {k : CallingConvention} (hk : k.isMethodLike = true) {f : UInt8}
    (hf : f &&& CallingConvention.mask = 0) {g : UInt32} {i : Nat} {as : List SigTree}
    (h : ∀ a ∈ as, Regular I c a) (hg : Reading.isGenericRaw (k.code ||| f) = false → g = 0) :
    Runs I w (Writing.methodSigOf c k f g i as) fun _ sig => sig.Regular := by
  rw [Writing.methodSigOf_eq hk hf]
  split
  · exact refuse
  · exact bind_argument fun _ => refuse
  · simp only [List.forall_mem_cons] at h
    exact bind_argument fun _ => h.2.1.type.bind fun _ hr => (parametersOf h.2.2).bind fun _ hps =>
      guard fun _ => pure ⟨hg, hps.1, hr.1, hps.2⟩

theorem countedTypesOf {k : CallingConvention} {as : List SigTree} (h : ∀ a ∈ as, Regular I c a) :
    Runs I w (Writing.countedTypesOf c k as) fun _ sigs => TypeSig.AllRegular sigs := by
  rw [Writing.countedTypesOf_eq]
  split
  · exact refuse
  · rw [List.forall_mem_cons] at h
    exact bind_argument fun _ => bind_argument fun _ => typeSigsOf h.2

theorem callSigOf {code : UInt8} {as : List SigTree} (h : ∀ a ∈ as, Regular I c a) :
    Runs I w (Writing.callSigOf c (.callSig code as)) fun _ sig => sig.Regular := by
  rw [Writing.callSigOf_eq]
  split
  · exact refuse
  · exact refuse
  · rw [List.forall_mem_cons] at h
    refine bind_argument fun _ => ?_
    split
    · exact refuse
    · next f hf =>
      split
      · next hk =>
        split
        · exact methodSigOf hk (mask_of_flagsOf hf) h.2 fun _ => rfl
        · next hflag =>
          split
          · exact refuse
          · simp only [List.forall_mem_cons] at h
            refine bind_argument fun _ =>
              methodSigOf hk (mask_of_flagsOf hf) h.2.2 fun hraw => ?_
            rw [isGenericRaw_or] at hraw
            exact absurd (bne_eq_false_iff_eq.1 hraw) hflag
      · refine ite (fun _ => refuse) fun _ => ?_
        split
        · simp only [List.forall_mem_cons] at h
          exact h.2.1.type.bind fun _ ht => pure ht.1
        · exact refuse
        · exact (countedTypesOf h.2).bind fun _ hts => pure hts
        · exact (countedTypesOf h.2).bind fun _ hts => pure hts

end Regular

/-- What a tree is written as is regular. -/
theorem regular {I : WriteState → Prop} [Keeping I] (c : Catalog) (t : SigTree) : Regular I c t := by
  induction t using SigTree.induction with
  | h t ih =>
      constructor
      · intro w
        unfold rowOfTree
        split
        · exact Regular.typeOfToken _
        · refine (Regular.typeSigOfCode ih).bind fun {sig w₁} _ h => ?_
          exact Runs.making (.typeSpec sig) fun _ => h.1
        · exact Runs.refuse
      · intro w
        unfold typeSigOf
        split
        · exact Regular.typeSigOfCode ih
        · exact Runs.refuse
      · intro w
        cases t with
        | callSig => exact Regular.callSigOf ih
        | _ => exact Runs.refuse

end CilCatalog
