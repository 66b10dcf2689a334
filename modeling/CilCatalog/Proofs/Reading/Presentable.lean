import CilCatalog.Proofs.Copying.Names
import CilCatalog.Proofs.Live.Inside
import CilCatalog.Proofs.Reading.Depicted
import CilCatalog.Proofs.Reading.Lengths
import CilCatalog.Proofs.Reading.Record
import CilCatalog.Proofs.SignatureIdentity
import CilCatalog.Proofs.Writing.Checked

/-!
# Signatures that are read have a text

A reader puts the arguments of a node together by itself, and the text form checks them.  What a reader makes of a signature has a text if every signature inside it is presentable, and not otherwise (`formattable_iff_of_read`): no method or property has the marker for a parameter, and the number of generic parameters, where one is announced, has no more than 31 bits.  That each list is short enough for its length to be put down is the only other condition, and one that is needed (`not_formattable_manyLocals`).

* `Depicts.formattable_iff`: a tree that depicts a signature has a text exactly if each signature inside is expressible.
* `NameRead.legible`: a token that has been read has a text.
-/

namespace CilCatalog

open Live
open Reading (flagsTree genericTrees isGenericRaw lengthTree parameterTrees)

/-! ### Signatures that have a text -/

namespace Live

namespace Signature

/-- A method or property does not have the marker for a parameter, in front of the marker or behind it, and if it announces a number of generic parameters, that is not negative as a number of 32 bits with a sign. -/
def Presentable : Signature → Prop
  | .call (.method raw _ n _ ps vs) =>
      (∀ p ∈ ps ++ vs, p.isSentinel = false) ∧ (isGenericRaw raw = true → n.toNat < 0x80000000)
  | _ => True

/-- The lengths that are put down for a signature. -/
def lengths : Signature → List Nat
  | .type (.array _ _ sizes lower)   => [sizes.length, lower.length]
  | .type (.genericInst _ as)        => [as.length]
  | .call (.method _ _ _ _ ps vs)    => [(ps ++ vs).length]
  | .call (.locals ts)               => [ts.length]
  | .call (.inst ts)                 => [ts.length]
  | _                                => []

/-- Each length can be put down as a number of 32 bits with a sign. -/
def Countable (i : Signature) : Prop := ∀ n ∈ i.lengths, n < 0x80000000

/-- Nothing in the signature itself stands in the way of a text. -/
def Expressible (i : Signature) : Prop := i.Presentable ∧ i.Countable

variable {i : Signature} {is : List Signature}

/-- A signature without lists and parameters has no part in whether there is a text. -/
theorem forall_plain_cons (hp : i.Presentable) (hl : i.lengths = []) :
    (∀ j ∈ i :: is, j.Expressible) ↔ ∀ j ∈ is, j.Expressible := by
  have plain : i.Expressible := ⟨hp, by rw [Countable, hl]; exact List.forall_mem_nil _⟩
  rw [List.forall_mem_cons, and_iff_right plain]

theorem expressible_array {t : TypeSig} {rank : UInt32} {sizes : List UInt32} {lower : List Int32} :
    (type (.array t rank sizes lower)).Expressible ↔
      sizes.length < 0x80000000 ∧ lower.length < 0x80000000 := by
  simp [Expressible, Presentable, Countable, lengths]

theorem expressible_genericInst {t : TypeSig} {as : List TypeSig} :
    (type (.genericInst t as)).Expressible ↔ as.length < 0x80000000 := by
  simp [Expressible, Presentable, Countable, lengths]

theorem expressible_method {raw : UInt8} {h : CallingConvention.isMethodOrPropertyRaw raw = true}
    {n : UInt32} {t : TypeSig} {ps vs : List TypeSig} :
    (call (.method raw h n t ps vs)).Expressible ↔
      ((∀ p ∈ ps ++ vs, p.isSentinel = false) ∧ (isGenericRaw raw = true → n.toNat < 0x80000000)) ∧
        (ps ++ vs).length < 0x80000000 := by
  rw [Expressible, Presentable, Countable, lengths, List.forall_mem_singleton]

theorem expressible_locals {ts : List TypeSig} :
    (call (.locals ts)).Expressible ↔ ts.length < 0x80000000 := by
  simp [Expressible, Presentable, Countable, lengths]

theorem expressible_inst {ts : List TypeSig} :
    (call (.inst ts)).Expressible ↔ ts.length < 0x80000000 := by
  simp [Expressible, Presentable, Countable, lengths]

end Signature

end Live

open Live.Signature (forall_plain_cons)

/-! ### Texts of trees that depict signatures -/

/-- The token has a text, and stands for the row of a type that has a name. -/
structure Legible (k : Token) (r : Row) : Prop where
  text : (SigTree.token k).Formattable
  named : ∀ n sig, r ≠ .typeSpec n sig

namespace DepictsAll

variable {R : Token → Row → Prop} {ts us : List SigTree} {as bs : List TypeSig}

theorem append (h : DepictsAll R ts as) (h' : DepictsAll R us bs) :
    DepictsAll R (ts ++ us) (as ++ bs) := by
  induction as generalizing ts with
  | nil =>
      cases h
      exact h'
  | cons a as ih =>
      cases h with
      | cons ha hs => exact .cons ha (ih hs)

/-- The trees of the parameters are markers where the parameters are. -/
theorem unmarked_iff (h : DepictsAll R ts as) :
    (∀ t ∈ ts, t.isSentinel = false) ↔ ∀ a ∈ as, a.isSentinel = false := by
  induction as generalizing ts with
  | nil =>
      cases h
      exact iff_of_true nofun nofun
  | cons a as ih =>
      cases h with
      | cons ha hs => rw [List.forall_mem_cons, List.forall_mem_cons, ha.isSentinel, ih hs]

end DepictsAll

/-- The flags that are put down announce generic parameters if the first octet does. -/
theorem hasGenericFlag_flags (raw : UInt8) :
    hasGenericFlag (Int32.ofNat (raw.toNat - (raw &&& CallingConvention.mask).toNat)) =
      isGenericRaw raw := by
  obtain ⟨f, hf, -, hgeneric⟩ := flagsOf_flagsTree raw
  rw [hasGenericFlag_of_flagsOf hf, isGenericRaw, hgeneric]

theorem formattable_genericTrees (raw : UInt8) (n : UInt32) :
    ∀ a ∈ genericTrees raw n, a.Formattable := by
  unfold genericTrees
  split
  · exact List.forall_mem_singleton.2 (SigTree.formattable_int32 _)
  · exact nofun

/-- The marker that is put between parameters has a text, so that only they matter. -/
theorem formattable_parameterTrees {ps vs : List SigTree} :
    (∀ a ∈ parameterTrees ps vs, a.Formattable) ↔ ∀ a ∈ ps ++ vs, a.Formattable := by
  have marker : (SigTree.ofElement .sentinel).Formattable := ⟨_, rfl⟩
  unfold parameterTrees
  split
  · next h => rw [List.isEmpty_iff.1 h, List.append_nil]
  · simp [marker, or_imp, forall_and]

/-- The arguments of a method or property behind its flags fit if it is presentable and its parameters can be counted. -/
theorem fits_method {R : Token → Row → Prop} {k : CallingConvention} (hk : k.isMethodLike = true)
    (raw : UInt8) (n : UInt32) (ret : SigTree) {ps vs : List SigTree} {as bs : List TypeSig}
    (hps : DepictsAll R ps as) (hvs : DepictsAll R vs bs) :
    (k.shape (Int32.ofNat (raw.toNat - (raw &&& CallingConvention.mask).toNat))).Fits
        (genericTrees raw n ++ lengthTree (ps ++ vs) :: ret :: parameterTrees ps vs) ↔
      (isGenericRaw raw = true → n.toNat < 0x80000000) ∧ (as ++ bs).length < 0x80000000 ∧
        ∀ p ∈ as ++ bs, p.isSentinel = false := by
  have params := hps.append hvs
  rw [CallingConvention.shape_of_isMethodLike hk, hasGenericFlag_flags, ← params.length_eq,
    ← params.unmarked_iff, ← Shape.fits_parameterTrees ret]
  unfold genericTrees
  cases isGenericRaw raw with
  | false => simp
  | true => simp [Shape.fits_count_cons, toInt_toInt32_nonneg]

/-- The arguments of an array fit if its sizes and its lower bounds can be counted. -/
theorem fits_array (t : SigTree) (rank : UInt32) (sizes : List UInt32) (lower : List Int32) :
    ElementType.array.shape.Fits (t :: .int32 rank.toInt32 ::
        (lengthTree sizes :: sizes.map fun n => .int32 n.toInt32) ++
        (lengthTree lower :: lower.map .int32)) ↔
      sizes.length < 0x80000000 ∧ lower.length < 0x80000000 := by
  have dimensions := Shape.fits_dimensions (sizes.map UInt32.toInt32) lower
  rw [lengthTree, List.map_map, List.length_map] at dimensions
  rw [← dimensions, ElementType.shape, List.cons_append, List.cons_append, Shape.fits_node_cons,
    Shape.fits_integer_cons]
  rfl

/-- A node around one tree. -/
theorem formattable_around_iff {e : ElementType} {t : SigTree} (he : e.isLeaf = false)
    (hs : e.shape = [.node]) : (SigTree.ofElement e [t]).Formattable ↔ t.Formattable := by
  rw [SigTree.formattable_ofElement_iff he, List.forall_mem_singleton, hs]
  exact and_iff_right (Slot.Takes.node t).fits

mutual

theorem DepictsRow.formattable_iff {t : SigTree} : ∀ {r : Row}, DepictsRow Legible t r →
    (t.Formattable ↔ ∀ i ∈ r.inside, i.Expressible)
  | .typeSpec _ _, .spec h  => by
      rw [Row.inside]
      exact h.formattable_iff
  | .typeSpec n sig, .named h => absurd rfl (h.named n sig)
  | .null, .named h | .typeDef _, .named h | .typeRef _ _ _ _, .named h | .assemblyRef _ _, .named h
  | .moduleRef _ _, .named h | .fieldDef _, .named h | .methodDef _, .named h
  | .memberRef _ _ _ _, .named h | .methodSpec _ _ _, .named h =>
      iff_of_true h.text (by simp [Row.inside])

/-- A tree that depicts the signature of a type has a text exactly if each signature inside is expressible. -/
theorem Depicts.formattable_iff {t : SigTree} : ∀ {sig : TypeSig}, Depicts Legible t sig →
    (t.Formattable ↔ ∀ i ∈ sig.inside, i.Expressible)
  -- only arrays and generic instances put down a length; every other form is as good as its parts
  | .leaf e h, .leaf _ he => by
      rw [TypeSig.inside, forall_plain_cons (i := .type (.leaf e h)) trivial rfl]
      exact iff_of_true (SigTree.formattable_ofElement (.inl ⟨he, rfl⟩) nofun) nofun
  | .wrapper v sig, .wrapper _ h => by
      rw [TypeSig.inside, forall_plain_cons (i := .type (.wrapper v sig)) trivial rfl,
        ← h.formattable_iff]
      exact formattable_around_iff (by cases v <;> rfl) (by cases v <;> rfl)
  | .fnPtr c, .fnPtr h => by
      rw [TypeSig.inside, forall_plain_cons (i := .type (.fnPtr c)) trivial rfl,
        ← h.formattable_iff]
      exact formattable_around_iff rfl rfl
  | .named byValue r, .named _ h => by
      rw [TypeSig.inside, forall_plain_cons (i := .type (.named byValue r)) trivial rfl,
        formattable_around_iff (by cases byValue <;> rfl) (by cases byValue <;> rfl)]
      exact iff_of_true h.text nofun
  | .generic ofMethod n, .generic _ _ => by
      rw [TypeSig.inside, forall_plain_cons (i := .type (.generic ofMethod n)) trivial rfl]
      refine iff_of_true ?_ nofun
      cases ofMethod <;>
        exact SigTree.formattable_one rfl (Slot.Takes.integer _).fits (SigTree.formattable_int32 _)
  | .array sig _ _ _, .array h rank sizes lower => by
      rw [SigTree.formattable_ofElement_iff rfl, fits_array, TypeSig.inside, List.forall_mem_cons,
        Signature.expressible_array, ← h.formattable_iff]
      simp [lengthTree, SigTree.formattable_int32, or_imp, forall_and]
  | .genericInst sig sigs, @Depicts.genericInst _ t' _ ts _ h hs => by
      have inside : (∀ i ∈ (TypeSig.genericInst sig sigs).inside, i.Expressible) ↔
          sigs.length < 0x80000000 ∧ t'.Formattable ∧ ∀ a ∈ ts, a.Formattable := by
        rw [TypeSig.inside, List.forall_mem_cons, Signature.expressible_genericInst,
          List.forall_mem_append, h.formattable_iff, hs.formattable_iff]
      rw [SigTree.formattable_ofElement_iff rfl, ElementType.shape, Shape.fits_node_cons,
        Shape.fits_lengthTree hs.length_eq, inside]
      simp [lengthTree, SigTree.formattable_int32]
  | .valueArray sig _, .valueArray h n => by
      rw [SigTree.formattable_ofElement_iff rfl, ElementType.shape, Shape.fits_node_cons,
        Shape.fits_integer_cons, Shape.fits_nil_iff, TypeSig.inside,
        forall_plain_cons (i := .type (.valueArray sig n)) trivial rfl, ← h.formattable_iff]
      simp [SigTree.formattable_int32]
  | .modifier required r sig, .modifier _ hm h => by
      have branch : (if required then ElementType.cmodReqd else .cmodOpt).isLeaf = false := by
        cases required <;> rfl
      have shape : (if required then ElementType.cmodReqd else .cmodOpt).shape = [.node, .node] := by
        cases required <;> rfl
      rw [SigTree.formattable_ofElement_iff branch, shape, Shape.fits_node_cons,
        Shape.fits_node_cons, Shape.fits_nil_iff, TypeSig.inside,
        forall_plain_cons (i := .type (.modifier required r sig)) trivial rfl,
        List.forall_mem_append, ← h.formattable_iff, ← hm.formattable_iff]
      simp
  | .module _ sig, .module n h => by
      rw [SigTree.formattable_ofElement_iff rfl, ElementType.shape, Shape.fits_integer_cons,
        Shape.fits_node_cons, Shape.fits_nil_iff, TypeSig.inside,
        forall_plain_cons (i := .type (.module n sig)) trivial rfl, ← h.formattable_iff]
      simp [SigTree.formattable_int32]

theorem DepictsAll.formattable_iff {ts : List SigTree} : ∀ {sigs : List TypeSig},
    DepictsAll Legible ts sigs →
    ((∀ t ∈ ts, t.Formattable) ↔ ∀ i ∈ TypeSig.insideAll sigs, i.Expressible)
  | [], .nil => iff_of_true nofun nofun
  | _ :: _, .cons h hs => by
      rw [List.forall_mem_cons, h.formattable_iff, hs.formattable_iff, TypeSig.insideAll,
        List.forall_mem_append]

/-- A tree that depicts a signature with a calling convention has a text exactly if each signature inside is expressible. -/
theorem DepictsCall.formattable_iff {t : SigTree} : ∀ {sig : CallSig}, DepictsCall Legible t sig →
    (t.Formattable ↔ ∀ i ∈ sig.inside, i.Expressible)
  | .method raw hraw n ret params after, @DepictsCall.method _ _ hlike _ u _ ps vs _ _ h hps hvs => by
      obtain ⟨k, hk, like⟩ := CallingConvention.exists_of_isMethodLikeRaw hlike
      -- the numbers and the marker have texts by themselves
      have args : (∀ a ∈ genericTrees raw n ++ lengthTree (ps ++ vs) :: u :: parameterTrees ps vs,
          a.Formattable) ↔ u.Formattable ∧ (∀ p ∈ ps, p.Formattable) ∧ ∀ p ∈ vs, p.Formattable := by
        rw [List.forall_mem_append, and_iff_right (formattable_genericTrees raw n),
          List.forall_mem_cons, lengthTree, and_iff_right (SigTree.formattable_int32 _),
          List.forall_mem_cons, formattable_parameterTrees, List.forall_mem_append]
      have inside : (∀ i ∈ (CallSig.method raw hraw n ret params after).inside, i.Expressible) ↔
          (((∀ p ∈ params ++ after, p.isSentinel = false) ∧
            (isGenericRaw raw = true → n.toNat < 0x80000000)) ∧
              (params ++ after).length < 0x80000000) ∧
            u.Formattable ∧ (∀ p ∈ ps, p.Formattable) ∧ ∀ p ∈ vs, p.Formattable := by
        rw [CallSig.inside, List.forall_mem_cons, Signature.expressible_method,
          h.formattable_iff, hps.formattable_iff, hvs.formattable_iff, ← List.forall_mem_append,
          ← List.forall_mem_append]
      rw [flagsTree, List.cons_append, SigTree.formattable_callSig_iff hk,
        fits_method like raw n _ hps hvs, args, inside]
      tauto
  | .field sig, .field h => by
      rw [SigTree.ofConvention, SigTree.formattable_callSig_iff (CallingConvention.ofCode?_code _),
        CallingConvention.shape, Shape.fits_node_cons, Shape.fits_nil_iff, CallSig.inside,
        forall_plain_cons (i := .call (.field sig)) trivial rfl, ← h.formattable_iff]
      simp
  | .locals sigs, @DepictsCall.locals _ ts _ hs => by
      have inside : (∀ i ∈ (CallSig.locals sigs).inside, i.Expressible) ↔
          sigs.length < 0x80000000 ∧ ∀ a ∈ ts, a.Formattable := by
        rw [CallSig.inside, List.forall_mem_cons, Signature.expressible_locals, hs.formattable_iff]
      rw [SigTree.ofConvention, SigTree.formattable_callSig_iff (CallingConvention.ofCode?_code _),
        CallingConvention.shape, Shape.fits_lengthTree hs.length_eq, inside]
      simp [lengthTree, SigTree.formattable_int32]
  | .inst sigs, @DepictsCall.inst _ ts _ hs => by
      have inside : (∀ i ∈ (CallSig.inst sigs).inside, i.Expressible) ↔
          sigs.length < 0x80000000 ∧ ∀ a ∈ ts, a.Formattable := by
        rw [CallSig.inside, List.forall_mem_cons, Signature.expressible_inst, hs.formattable_iff]
      rw [SigTree.ofConvention, SigTree.formattable_callSig_iff (CallingConvention.ofCode?_code _),
        CallingConvention.shape, Shape.fits_lengthTree hs.length_eq, inside]
      simp [lengthTree, SigTree.formattable_int32]

end

/-! ### Texts of what has been read -/

/-- The token that is read of a row is on record, so that it has a text. -/
theorem NameRead.legible {m : Source} {σ : Reader} (hσ : Sound m σ) {k : Token} {r : Row}
    (h : NameRead m σ k r) : Legible k r := by
  obtain ⟨ρ₀, ρ₁, hs, h, hg⟩ := h
  obtain ⟨id, names, hid⟩ := (gives_namedType hs.image hs.options).1 h
  obtain ⟨u, hu, rfl⟩ := Read.of_typeReference ⟨ρ₀, ρ₁, hs, hid, hg⟩ names.normal
  obtain ⟨e, he, -, -⟩ := hσ.types.found id u names.normal hu
  refine ⟨SigTree.formattable_token he, fun n sig => ?_⟩
  cases names with
  | native t _ => exact nofun
  | foreign n ns name scope i a _ => exact nofun

/-- What a reader makes of a signature with a calling convention has a text exactly if each signature inside is expressible. -/
theorem formattable_iff_of_callSigTree {m : Source} {ρ ρ' : Reader} (hs : Sound m ρ) {sig : CallSig}
    {t : SigTree} (h : Gives (Reading.callSigTree m.store sig) ρ t ρ') :
    t.Formattable ↔ ∀ i ∈ sig.inside, i.Expressible := by
  have hs' := (Steady.callSigTree m.store sig).sound hs h
  exact ((DepictsCall.of_read (.of_gives hs h)).mono (NameRead.legible hs')).formattable_iff

/-- What a reader makes of a signature, in any state that it can be in and whatever its options, has a text exactly if each signature inside is presentable and has lists of a length that can be put down. -/
theorem formattable_iff_of_read {m : Source} {ρ ρ' : Reader} (hs : Sound m ρ) (t : SigTree) :
    (∀ sig : TypeSig, Gives (Reading.typeSigTree m.store sig) ρ t ρ' →
      (t.Formattable ↔ (∀ i ∈ sig.inside, i.Presentable) ∧ ∀ i ∈ sig.inside, i.Countable)) ∧
    ∀ sig : CallSig, Gives (Reading.callSigTree m.store sig) ρ t ρ' →
      (t.Formattable ↔ (∀ i ∈ sig.inside, i.Presentable) ∧ ∀ i ∈ sig.inside, i.Countable) := by
  constructor
  · intro sig h
    have hs' := (Steady.typeSigTree m.store sig).sound hs h
    have depicts := (Depicts.of_read (.of_gives hs h)).mono (NameRead.legible hs')
    rw [depicts.formattable_iff]
    exact forall₂_and
  · intro sig h
    rw [formattable_iff_of_callSigTree hs h]
    exact forall₂_and

theorem isMethodOrProperty_varArg : CallingConvention.isMethodOrPropertyRaw 0x5 = true := rfl

/-- A method that returns a type parameter, with one as its parameter in front of the marker and a parameter behind it. -/
def variadicSig (after : TypeSig) : CallSig :=
  .method 0x5 isMethodOrProperty_varArg 0 (.generic false 0) [.generic false 1] [after]

/-- A pointer to a function with a parameter behind the marker has a text, and a function with a second marker behind the marker has none. -/
theorem formattable_iff_of_read_variadic :
    ∃ (m : Source) (ρ ρ' : Reader) (t u : SigTree), Sound m ρ ∧
      Gives (Reading.typeSigTree m.store (.fnPtr (variadicSig (.generic false 2)))) ρ t ρ' ∧
      t.Formattable ∧
      Gives (Reading.callSigTree m.store (variadicSig (.leaf .sentinel rfl))) ρ u ρ' ∧
      ¬ u.Formattable := by
  have hs := start_sound ⟨.empty, ⟨0⟩, ⟨0⟩⟩
  have pointer : Gives (Reading.typeSigTree .empty (.fnPtr (variadicSig (.generic false 2))))
      (.start ⟨0⟩ ⟨0⟩) _ _ := rfl
  have marked : Gives (Reading.callSigTree .empty (variadicSig (.leaf .sentinel rfl)))
      (.start ⟨0⟩ ⟨0⟩) _ _ := rfl
  refine ⟨_, _, _, _, _, hs, pointer, ?_, marked, ?_⟩
  · refine ((formattable_iff_of_read hs _).1 _ pointer).2 ⟨?_, ?_⟩
    · simp [variadicSig, TypeSig.inside, CallSig.inside, TypeSig.insideAll, Signature.Presentable,
        TypeSig.isSentinel, isGenericRaw]
    · simp [variadicSig, TypeSig.inside, CallSig.inside, TypeSig.insideAll, Signature.Countable,
        Signature.lengths]
  · intro text
    have presentable := (((formattable_iff_of_read hs _).2 _ marked).1 text).1 _ (CallSig.mem_inside _)
    exact absurd (presentable.1 (.leaf .sentinel rfl) (by simp)) (by decide)

/-! ### A list that is too long -/

/-- The signature of `n` local variables, each of the type that is the first parameter. -/
def manyLocals (n : Nat) : CallSig := .locals (List.replicate n (.generic false 0))

theorem gives_replicate (s : Store) (ρ : Reader) : ∀ n : Nat,
    ∃ ts, Gives (Reading.typeSigTrees s (List.replicate n (.generic false 0))) ρ ts ρ
  | 0     => ⟨[], rfl⟩
  | n + 1 => by
      obtain ⟨ts, hts⟩ := gives_replicate s ρ n
      refine ⟨.ofElement .var [.int32 0] :: ts, ?_⟩
      rw [List.replicate_succ, Reading.typeSigTrees]
      exact gives_bind.2 ⟨_, ρ, rfl, gives_bind.2 ⟨ts, ρ, hts, rfl⟩⟩

theorem mem_inside_manyLocals {n : Nat} {i : Signature} (h : i ∈ (manyLocals n).inside) :
    i = .call (manyLocals n) ∨ i = .type (.generic false 0) := by
  have all : ∀ k, ∀ i ∈ TypeSig.insideAll (List.replicate k (.generic false 0)),
      i = .type (.generic false 0) := by
    intro k
    induction k with
    | zero => nofun
    | succ k ih =>
        rw [List.replicate_succ, TypeSig.insideAll]
        intro i hi
        rcases List.mem_append.1 hi with hi | hi
        · exact List.mem_singleton.1 hi
        · exact ih i hi
  rw [manyLocals, CallSig.inside] at h
  exact (List.mem_cons.1 h).imp id (all n i)

/-- More local variables than can be counted: the signature is read and all of it is presentable, but the tree has no text. -/
theorem not_formattable_manyLocals : ∃ (m : Source) (ρ ρ' : Reader) (t : SigTree), Sound m ρ ∧
    Gives (Reading.callSigTree m.store (manyLocals 0x80000000)) ρ t ρ' ∧
    ¬ (t.Formattable ↔ ∀ i ∈ (manyLocals 0x80000000).inside, i.Presentable) := by
  obtain ⟨n, hn⟩ : ∃ n : Nat, n = 0x80000000 := ⟨_, rfl⟩
  rw [← hn]
  have hs := start_sound ⟨.empty, ⟨0⟩, ⟨0⟩⟩
  obtain ⟨ts, hts⟩ := gives_replicate .empty (.start ⟨0⟩ ⟨0⟩) n
  have read : Gives (Reading.callSigTree .empty (manyLocals n)) (.start ⟨0⟩ ⟨0⟩) _ _ :=
    gives_bind.2 ⟨ts, _, hts, rfl⟩
  refine ⟨_, _, _, _, hs, read, fun text => ?_⟩
  have presentable : ∀ i ∈ (manyLocals n).inside, i.Presentable := by
    intro i hi
    rcases mem_inside_manyLocals hi with rfl | rfl <;> exact trivial
  have counted := (formattable_iff_of_callSigTree hs read).1 (text.2 presentable) _ (CallSig.mem_inside _)
  have few := Signature.expressible_locals.1 counted
  rw [List.length_replicate] at few
  omega

end CilCatalog
