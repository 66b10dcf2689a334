import CilCatalog.Proofs.Uses
import CilCatalog.Proofs.Writing.Arises
import CilCatalog.Proofs.Writing.Regular
import Mathlib.Data.List.TakeWhile

/-!
# Signatures are equal as their trees are

A live module compares signatures part by part, and types in them as rows; a catalog compares trees.  For signatures that a writer makes of trees it comes to the same, if the types in the trees have rows of their own.

* `Depicts.iff_of_form`, `DepictsCall.iff_of_code`: signatures of different forms are different, and so are their trees.
* `DepictsRow.sigEq_iff`, `Depicts.sigEq_iff`, `DepictsCall.sigEq_iff`: of regular signatures that two trees depict, one is equal to the other just if the trees are equal.
-/

namespace CilCatalog

open Live Writing
open Reading (flagsTree genericTrees lengthTree parameterTrees)

/-! ### Forms of signatures -/

/-- The forms that the signature of a type can have. -/
inductive SigForm where
  | leaf | wrapper | fnPtr | named | generic | array | genericInst | valueArray | modifier | module
deriving DecidableEq

/-- The form of the signatures that an element type stands in front of. -/
def ElementType.form : ElementType → SigForm
  | .ptr | .byRef | .szArray | .pinned => .wrapper
  | .fnPtr                             => .fnPtr
  | .valueType | .cls                  => .named
  | .var | .mvar                       => .generic
  | .array                             => .array
  | .genericInst                       => .genericInst
  | .valueArray                        => .valueArray
  | .cmodReqd | .cmodOpt               => .modifier
  | .module                            => .module
  | _                                  => .leaf

def Live.TypeSig.form? : TypeSig → Option SigForm
  | .null          => none
  | .leaf ..       => some .leaf
  | .wrapper ..    => some .wrapper
  | .fnPtr _       => some .fnPtr
  | .named ..      => some .named
  | .generic ..    => some .generic
  | .array ..      => some .array
  | .genericInst _ _ => some .genericInst
  | .valueArray .. => some .valueArray
  | .modifier ..   => some .modifier
  | .module ..     => some .module

theorem ElementType.form_of_isLeaf {e : ElementType} (h : e.isLeaf = true) : e.form = .leaf := by
  cases e <;> first | rfl | exact nomatch h

theorem SigTree.ofElement_inj {e f : ElementType} {as bs : List SigTree} :
    ofElement e as = ofElement f bs ↔ e = f ∧ as = bs := by
  simp only [ofElement, typeSig.injEq]
  refine and_congr_left' ⟨fun h => ?_, congrArg _⟩
  have := ElementType.ofCode?_code e
  rw [h, ElementType.ofCode?_code f] at this
  exact (Option.some.inj this).symm

theorem Live.Wrapper.elementType_inj {v w : Wrapper} : v.elementType = w.elementType ↔ v = w := by
  cases v <;> cases w <;> decide

/-- One of two element types says which of two things is meant. -/
theorem ElementType.choice_inj {e f : ElementType} (h : e ≠ f) {v w : Bool} :
    (if v then e else f) = (if w then e else f) ↔ v = w := by
  cases v <;> cases w <;> simp [h, h.symm]

theorem form?_of_sigEq {a b : TypeSig} (h : a.sigEq b = true) : a.form? = b.form? := by
  cases a <;> cases b <;> first | rfl | simp [TypeSig.sigEq] at h

section

variable {R : Token → Row → Prop} {t u : SigTree} {a b : TypeSig}

/-- The tree of a signature has an element type of its form. -/
theorem Depicts.form (h : Depicts R t a) :
    ∃ e as, t = .ofElement e as ∧ a.form? = some e.form := by
  cases h with
  | leaf e he => exact ⟨e, [], rfl, congrArg some (ElementType.form_of_isLeaf he).symm⟩
  | wrapper v => exact ⟨_, _, rfl, by cases v <;> rfl⟩
  | named v => exact ⟨_, _, rfl, by cases v <;> rfl⟩
  | generic v => exact ⟨_, _, rfl, by cases v <;> rfl⟩
  | modifier v => exact ⟨_, _, rfl, by cases v <;> rfl⟩
  | fnPtr | array | genericInst | valueArray | module => exact ⟨_, _, rfl, rfl⟩

/-- Signatures of different forms are different, and so are their trees. -/
theorem Depicts.iff_of_form (ha : Depicts R t a) (hb : Depicts R u b) (hf : a.form? ≠ b.form?) :
    a.sigEq b = true ↔ t = u := by
  refine iff_of_false (fun h => hf (form?_of_sigEq h)) ?_
  rintro rfl
  obtain ⟨e, as, rfl, hea⟩ := ha.form
  obtain ⟨f, bs, heq, hfb⟩ := hb.form
  obtain ⟨rfl, -⟩ := SigTree.ofElement_inj.1 heq
  exact hf (hea.trans hfb.symm)

/-- The calling convention of a tree is that of the signature. -/
theorem DepictsCall.code {c : CallSig} (h : DepictsCall R t c) :
    ∃ as, t = .callSig (c.raw &&& CallingConvention.mask) as := by
  have masked : ∀ k : CallingConvention, k.code = k.code &&& CallingConvention.mask := by
    intro k
    cases k <;> decide
  cases h with
  | method => exact ⟨_, rfl⟩
  | _ => exact ⟨_, congrArg (SigTree.callSig · _) (masked _)⟩

/-- The calling convention of a method is one of methods. -/
theorem masked_ne {q : UInt8} (hq : CallingConvention.isMethodLikeRaw q = true)
    {k : CallingConvention} (hk : k.isMethodLike = false) :
    q &&& CallingConvention.mask ≠ k.code &&& CallingConvention.mask := by
  intro h
  rw [CallingConvention.isMethodLikeRaw, CallingConvention.ofRaw?, h] at hq
  cases k <;> first | exact absurd hk (by decide) | exact absurd hq (by decide)

theorem convention_ne {j k : CallingConvention} (h : j ≠ k) :
    j.code &&& CallingConvention.mask ≠ k.code &&& CallingConvention.mask := by
  cases j <;> cases k <;> first | exact absurd rfl h | decide

/-- Signatures of different calling conventions are different, and so are their trees. -/
theorem DepictsCall.iff_of_code {c d : CallSig} (hc : DepictsCall R t c) (hd : DepictsCall R u d)
    (hne : c.raw &&& CallingConvention.mask ≠ d.raw &&& CallingConvention.mask) :
    c.sigEq d = true ↔ t = u := by
  refine iff_of_false (fun h => hne (by rw [CallSig.raw_of_sigEq h])) ?_
  rintro rfl
  obtain ⟨as, rfl⟩ := hc.code
  obtain ⟨bs, heq⟩ := hd.code
  exact hne (SigTree.callSig.inj heq).1

theorem Depicts.isSentinel (h : Depicts R t a) : t.isSentinel = a.isSentinel := by
  cases h with
  | leaf e => cases e <;> rfl
  | wrapper v => cases v <;> rfl
  | named v => cases v <;> rfl
  | generic v => cases v <;> rfl
  | modifier v => cases v <;> rfl
  | fnPtr | array | genericInst | valueArray | module => rfl

theorem DepictsAll.isSentinel {ts : List SigTree} {as : List TypeSig} (h : DepictsAll R ts as)
    (has : ∀ a ∈ as, a.isSentinel = false) : ∀ t ∈ ts, t.isSentinel = false := by
  induction as generalizing ts with
  | nil =>
      cases h
      exact nofun
  | cons a as ih =>
      cases h with
      | cons ha hs =>
          rw [List.forall_mem_cons] at has ⊢
          exact ⟨ha.isSentinel.trans has.1, ih hs has.2⟩

end

/-! ### What is put down once -/

/-- A first octet is its calling convention and its flags. -/
theorem raw_unique {q s : UInt8}
    (code : q &&& CallingConvention.mask = s &&& CallingConvention.mask) (flags : flagsTree q = flagsTree s) : q = s := by
  obtain ⟨f, hf, hq, -⟩ := flagsOf_flagsTree q
  obtain ⟨g, hg, hs, -⟩ := flagsOf_flagsTree s
  rw [SigTree.int32.inj flags, hg] at hf
  cases hf
  rw [← hq, code, hs]

theorem toInt32_injective : Function.Injective UInt32.toInt32 :=
  Function.LeftInverse.injective UInt32.toUInt32_toInt32

theorem length_genericTrees (raw : UInt8) (m n : UInt32) :
    (genericTrees raw m).length = (genericTrees raw n).length := by
  unfold genericTrees
  split <;> rfl

theorem genericTrees_inj {raw : UInt8} {m n : UInt32}
    (hm : Reading.isGenericRaw raw = false → m = 0) (hn : Reading.isGenericRaw raw = false → n = 0) :
    genericTrees raw m = genericTrees raw n ↔ m = n := by
  refine ⟨fun h => ?_, congrArg _⟩
  unfold genericTrees at h
  split at h
  · exact toInt32_injective (SigTree.int32.inj (List.singleton_inj.1 h))
  · next hraw =>
      have hraw := eq_false_of_ne_true hraw
      rw [hm hraw, hn hraw]

/-- Lengths that can be counted are told apart by their numbers. -/
theorem length_of_lengthTree {α : Type} {as bs : List α} (ha : as.length < 0x100000000)
    (hb : bs.length < 0x100000000) (h : lengthTree as = lengthTree bs) : as.length = bs.length := by
  have bits := congrArg (fun i : Int32 => i.toBitVec.toNat) (SigTree.int32.inj h)
  change as.length % 2 ^ 32 = bs.length % 2 ^ 32 at bits
  omega

/-- Where no parameter is the marker, it is seen where parameters are split. -/
theorem parameterTrees_inj {ps vs us ws : List SigTree} (hp : ∀ p ∈ ps, p.isSentinel = false)
    (hu : ∀ p ∈ us, p.isSentinel = false) :
    parameterTrees ps vs = parameterTrees us ws ↔ ps = us ∧ vs = ws := by
  refine ⟨fun h => ?_, fun ⟨hp, hv⟩ => by rw [hp, hv]⟩
  -- what is in front of the first marker, and what is from there on
  have parts : ∀ {ps vs : List SigTree}, (∀ p ∈ ps, p.isSentinel = false) →
      (parameterTrees ps vs).span (!·.isSentinel) =
        (ps, if vs.isEmpty then [] else .ofElement .sentinel :: vs) := by
    intro ps vs hp
    have before : ∀ p ∈ ps, (!p.isSentinel) = true := fun p h => by rw [hp p h]; rfl
    rw [List.span_eq_takeWhile_dropWhile, parameterTrees]
    split
    · rw [List.takeWhile_eq_self_iff.2 before, List.dropWhile_eq_nil_iff.2 before]
    · rw [List.takeWhile_append_of_pos before, List.dropWhile_append_of_pos before]
      simp [show (SigTree.ofElement .sentinel).isSentinel = true from rfl]
  have split := congrArg (List.span (!·.isSentinel)) h
  rw [parts hp, parts hu] at split
  obtain ⟨rfl, behind⟩ := Prod.mk.inj split
  refine ⟨rfl, ?_⟩
  cases vs <;> cases ws <;> simp_all

/-- The dimensions of an array are put down so that they can be told apart. -/
theorem dimensions_inj {ms ns : List UInt32} (ls ks : List Int32) (hm : ms.length < 0x100000000)
    (hn : ns.length < 0x100000000) :
    (lengthTree ms :: ms.map fun n => SigTree.int32 n.toInt32) ++ (lengthTree ls :: ls.map .int32) =
        (lengthTree ns :: ns.map fun n => SigTree.int32 n.toInt32) ++
          (lengthTree ks :: ks.map .int32) ↔
      ms = ns ∧ ls = ks := by
  refine ⟨fun h => ?_, fun ⟨hm, hl⟩ => by rw [hm, hl]⟩
  obtain ⟨number, rest⟩ := List.cons.inj h
  have length := length_of_lengthTree hm hn number
  obtain ⟨sizes, lower⟩ := List.append_inj rest (by rw [List.length_map, List.length_map, length])
  have size : Function.Injective fun n : UInt32 => SigTree.int32 n.toInt32 :=
    fun _ _ h => toInt32_injective (SigTree.int32.inj h)
  exact ⟨List.map_injective_iff.2 size sizes,
    List.map_injective_iff.2 (fun _ _ => SigTree.int32.inj) (List.cons.inj lower).2⟩

/-- Trees behind their number are told apart by themselves. -/
theorem counted_inj {R : Token → Row → Prop} {ts us : List SigTree} {as bs : List TypeSig}
    (ha : DepictsAll R ts as) (hb : DepictsAll R us bs) :
    lengthTree as :: ts = lengthTree bs :: us ↔ ts = us := by
  refine ⟨fun h => (List.cons.inj h).2, ?_⟩
  rintro rfl
  rw [lengthTree, lengthTree, ← ha.length_eq, hb.length_eq]

/-! ### Two trees and their signatures -/

/-- The tokens stand for rows that can be told apart, and none for a type specification.  The type specifications on one side have other numbers than those on the other. -/
structure RowsApart (R : Token → Row → Prop) (Q Q' : Nat → Prop) : Prop where
  plain : ∀ {k r}, R k r → ∀ n sig, r ≠ .typeSpec n sig
  same_iff : ∀ {k k' r r'}, R k r → R k' r' → (r.same r' = true ↔ k = k')
  numbers : ∀ n, Q n → ¬ Q' n

section

variable {R : Token → Row → Prop} {P P' : Row → Prop} {Q Q' : Nat → Prop}

/-- The row under a token is compared as a row. -/
theorem DepictsRow.sigEq_iff_of_named (hR : RowsApart R Q Q') {k : Token} {u : SigTree} {a b : Row}
    (ha : R k a) (hb : DepictsRow R u b) : a.sigEq b = true ↔ .token k = u := by
  have row : a.sigEq b = a.same b := by
    cases a with
    | typeSpec n sig => exact absurd rfl (hR.plain ha n sig)
    | _ => simp only [Row.sigEq]
  rw [row]
  cases hb with
  | named hb => rw [hR.same_iff ha hb, SigTree.token.injEq]
  | spec hb =>
      obtain ⟨e, as, rfl, -⟩ := hb.form
      refine iff_of_false (fun h => ?_) nofun
      cases a with
      | typeSpec n sig => exact hR.plain ha n sig rfl
      | _ => exact absurd h (by simp [Row.same, Row.key?])

mutual

theorem DepictsRow.sigEq_iff (hR : RowsApart R Q Q') : ∀ (a b : Row) {t u : SigTree},
    DepictsRow R t a → DepictsRow R u b → a.Regular → b.Regular → a.MadeOf P Q →
    b.MadeOf P' Q' → (a.sigEq b = true ↔ t = u)
  | .typeSpec n sig, b, t, u, ha, hb, ra, rb, ma, mb => by
      cases ha with
      | named ha => exact absurd rfl (hR.plain ha n sig)
      | spec ha =>
          cases hb with
          | named hb =>
              rw [@eq_comm _ t, ← DepictsRow.sigEq_iff_of_named hR hb (.spec ha)]
              exact ⟨Row.sigEq_symm _ _, Row.sigEq_symm _ _⟩
          -- only a type specification is compared by its signature, and its number is on one side only
          | @spec _ m sig' hb =>
              rw [Row.sigEq, Bool.or_eq_true, beq_iff_eq, or_iff_right]
              · exact Depicts.sigEq_iff hR sig sig' ha hb ra rb ma.2 mb.2
              · rintro rfl
                exact hR.numbers n ma.1 mb.1
  | .null, b, t, u, ha, hb, _, _, _, _ | .assemblyRef _ _, b, t, u, ha, hb, _, _, _, _
  | .moduleRef _ _, b, t, u, ha, hb, _, _, _, _ | .typeDef _, b, t, u, ha, hb, _, _, _, _
  | .typeRef _ _ _ _, b, t, u, ha, hb, _, _, _, _ | .fieldDef _, b, t, u, ha, hb, _, _, _, _
  | .methodDef _, b, t, u, ha, hb, _, _, _, _ | .memberRef _ _ _ _, b, t, u, ha, hb, _, _, _, _
  | .methodSpec _ _ _, b, t, u, ha, hb, _, _, _, _ => by
      cases ha with
      | named ha => exact DepictsRow.sigEq_iff_of_named hR ha hb

theorem Depicts.sigEq_iff (hR : RowsApart R Q Q') : ∀ (a b : TypeSig) {t u : SigTree},
    Depicts R t a → Depicts R u b → a.Regular → b.Regular → a.MadeOf P Q → b.MadeOf P' Q' →
    (a.sigEq b = true ↔ t = u)
  | .null, _, _, _, ha, _, _, _, _, _ => nomatch ha
  -- signatures of different forms have trees of different element types, so one form is left on the other side
  | .leaf e he, b, t, u, ha, hb, _, _, _, _ => by
      cases b with
      | leaf f hf =>
          cases ha
          cases hb
          simp only [TypeSig.sigEq, beq_iff_eq, SigTree.ofElement_inj, and_true]
      | _ => exact ha.iff_of_form hb nofun
  | .wrapper v s, b, t, u, ha, hb, ra, rb, ma, mb => by
      cases b with
      | wrapper w s' =>
          cases ha with
          | wrapper _ ha =>
          cases hb with
          | wrapper _ hb =>
          simp only [TypeSig.sigEq, Bool.and_eq_true, beq_iff_eq,
            Depicts.sigEq_iff hR s s' ha hb ra rb ma mb, SigTree.ofElement_inj,
            Wrapper.elementType_inj, List.singleton_inj]
      | _ => exact ha.iff_of_form hb nofun
  | .fnPtr c, b, t, u, ha, hb, ra, rb, ma, mb => by
      cases b with
      | fnPtr c' =>
          cases ha with
          | fnPtr ha =>
          cases hb with
          | fnPtr hb =>
          simp only [TypeSig.sigEq, DepictsCall.sigEq_iff hR c c' ha hb ra rb ma mb,
            SigTree.ofElement_inj, List.singleton_inj, true_and]
      | _ => exact ha.iff_of_form hb nofun
  | .named v r, b, t, u, ha, hb, _, _, _, _ => by
      cases b with
      | named w r' =>
          cases ha with
          | named _ ha =>
          cases hb with
          | named _ hb =>
          simp only [TypeSig.sigEq, Bool.and_eq_true, beq_iff_eq,
            DepictsRow.sigEq_iff_of_named hR ha (.named hb), SigTree.ofElement_inj,
            ElementType.choice_inj (show ElementType.valueType ≠ .cls by decide),
            List.singleton_inj]
      | _ => exact ha.iff_of_form hb nofun
  | .generic v m, b, t, u, ha, hb, _, _, _, _ => by
      cases b with
      | generic w n =>
          cases ha
          cases hb
          simp only [TypeSig.sigEq, Bool.and_eq_true, beq_iff_eq, SigTree.ofElement_inj,
            ElementType.choice_inj (show ElementType.mvar ≠ .var by decide), List.singleton_inj,
            SigTree.int32.injEq, toInt32_injective.eq_iff]
      | _ => exact ha.iff_of_form hb nofun
  | .array s q ms ls, b, t, u, ha, hb, ra, rb, ma, mb => by
      cases b with
      | array s' q' ns ks =>
          cases ha with
          | array ha =>
          cases hb with
          | array hb =>
          simp only [TypeSig.sigEq, Bool.and_eq_true, beq_iff_eq,
            Depicts.sigEq_iff hR s s' ha hb ra.2 rb.2 ma mb, SigTree.ofElement_inj,
            List.cons_append, List.cons.injEq, SigTree.int32.injEq, toInt32_injective.eq_iff]
          have := dimensions_inj ls ks ra.1 rb.1
          simp only [List.cons_append, List.cons.injEq] at this
          rw [this]
          tauto
      | _ => exact ha.iff_of_form hb nofun
  | .genericInst s as, b, t, u, ha, hb, ra, rb, ma, mb => by
      cases b with
      | genericInst s' bs =>
          cases ha with
          | genericInst ha has =>
          cases hb with
          | genericInst hb hbs =>
          simp only [TypeSig.sigEq, Bool.and_eq_true,
            Depicts.sigEq_iff hR s s' ha hb ra.1 rb.1 ma.1 mb.1,
            DepictsAll.sigEqList_iff hR as bs has hbs ra.2 rb.2 ma.2 mb.2, SigTree.ofElement_inj,
            List.cons.injEq, counted_inj has hbs, true_and]
      | _ => exact ha.iff_of_form hb nofun
  | .valueArray s m, b, t, u, ha, hb, ra, rb, ma, mb => by
      cases b with
      | valueArray s' n =>
          cases ha with
          | valueArray ha =>
          cases hb with
          | valueArray hb =>
          simp only [TypeSig.sigEq, Bool.and_eq_true, beq_iff_eq,
            Depicts.sigEq_iff hR s s' ha hb ra rb ma mb, SigTree.ofElement_inj, List.cons.injEq,
            SigTree.int32.injEq, toInt32_injective.eq_iff]
          tauto
      | _ => exact ha.iff_of_form hb nofun
  | .modifier v r s, b, t, u, ha, hb, ra, rb, ma, mb => by
      cases b with
      | modifier w r' s' =>
          cases ha with
          | modifier _ har ha =>
          cases hb with
          | modifier _ hbr hb =>
          simp only [TypeSig.sigEq, Bool.and_eq_true, beq_iff_eq,
            DepictsRow.sigEq_iff hR r r' har hbr ra.1 rb.1 ma.1 mb.1,
            Depicts.sigEq_iff hR s s' ha hb ra.2 rb.2 ma.2 mb.2, SigTree.ofElement_inj,
            ElementType.choice_inj (show ElementType.cmodReqd ≠ .cmodOpt by decide),
            List.cons.injEq]
          tauto
      | _ => exact ha.iff_of_form hb nofun
  | .module m s, b, t, u, ha, hb, ra, rb, ma, mb => by
      cases b with
      | module n s' =>
          cases ha with
          | module _ ha =>
          cases hb with
          | module _ hb =>
          simp only [TypeSig.sigEq, Bool.and_eq_true, beq_iff_eq,
            Depicts.sigEq_iff hR s s' ha hb ra rb ma mb, SigTree.ofElement_inj, List.cons.injEq,
            SigTree.int32.injEq, toInt32_injective.eq_iff]
          tauto
      | _ => exact ha.iff_of_form hb nofun

theorem DepictsAll.sigEqList_iff (hR : RowsApart R Q Q') : ∀ (as bs : List TypeSig)
    {ts us : List SigTree}, DepictsAll R ts as → DepictsAll R us bs → TypeSig.AllRegular as → TypeSig.AllRegular bs →
    TypeSig.AllMadeOf P Q as → TypeSig.AllMadeOf P' Q' bs →
    (TypeSig.sigEqList as bs = true ↔ ts = us)
  | [], bs, ts, us, ha, hb, _, _, _, _ => by
      cases ha
      cases hb with
      | nil => simp only [TypeSig.sigEqList]
      | cons => simp [TypeSig.sigEqList]
  | a :: as, bs, ts, us, ha, hb, ra, rb, ma, mb => by
      cases ha with
      | cons ha has =>
      cases hb with
      | nil => simp [TypeSig.sigEqList]
      | @cons _ b _ bs hb hbs =>
          simp only [TypeSig.sigEqList, Bool.and_eq_true, List.cons.injEq,
            Depicts.sigEq_iff hR a b ha hb ra.1 rb.1 ma.1 mb.1,
            DepictsAll.sigEqList_iff hR as bs has hbs ra.2 rb.2 ma.2 mb.2]

theorem DepictsCall.sigEq_iff (hR : RowsApart R Q Q') : ∀ (a b : CallSig) {t u : SigTree},
    DepictsCall R t a → DepictsCall R u b → a.Regular → b.Regular → a.MadeOf P Q → b.MadeOf P' Q' →
    (a.sigEq b = true ↔ t = u)
  | .null, _, _, _, ha, _, _, _, _, _ => nomatch ha
  -- the code gives the flags, the flags give the length of the counts, and what is behind them are the types
  | .method q _ m s ps vs, b, t, u, ha, hb, ra, rb, ma, mb => by
      cases b with
      | method q' _ n s' us ws =>
          cases ha with
          | method _ _ ha hps hvs =>
          cases hb with
          | method _ _ hb hus hws =>
          simp only [CallSig.sigEq, Bool.and_eq_true, beq_iff_eq,
            Depicts.sigEq_iff hR s s' ha hb ra.2.2.1 rb.2.2.1 ma.2.1 mb.2.1,
            DepictsAll.sigEqList_iff hR ps us hps hus ra.2.2.2.1 rb.2.2.2.1 ma.2.2.1 mb.2.2.1,
            DepictsAll.sigEqList_iff hR vs ws hvs hws ra.2.2.2.2 rb.2.2.2.2 ma.2.2.2 mb.2.2.2]
          constructor
          · rintro ⟨⟨⟨⟨rfl, rfl⟩, rfl⟩, rfl⟩, rfl⟩
            rfl
          · intro heq
            obtain ⟨code, args⟩ := SigTree.callSig.inj heq
            simp only [List.cons_append, List.cons.injEq] at args
            obtain rfl := raw_unique code args.1
            obtain ⟨count, rest⟩ := List.append_inj args.2 (length_genericTrees q m n)
            obtain ⟨-, rest⟩ := List.cons.inj rest
            obtain ⟨ret, params⟩ := List.cons.inj rest
            rw [parameterTrees_inj (hps.isSentinel fun p h => ra.2.1 p (List.mem_append_left _ h))
              (hus.isSentinel fun p h => rb.2.1 p (List.mem_append_left _ h))] at params
            exact ⟨⟨⟨⟨rfl, (genericTrees_inj ra.1 rb.1).1 count⟩, ret⟩, params.1⟩, params.2⟩
      | null => exact nomatch hb
      | _ => exact ha.iff_of_code hb (masked_ne ma.1 rfl)
  | .field s, b, t, u, ha, hb, ra, rb, ma, mb => by
      cases b with
      | field s' =>
          cases ha with
          | field ha =>
          cases hb with
          | field hb =>
          simp only [CallSig.sigEq, Depicts.sigEq_iff hR s s' ha hb ra rb ma mb,
            SigTree.ofConvention, SigTree.callSig.injEq, List.cons.injEq, and_true, true_and]
      | method => exact ha.iff_of_code hb (masked_ne mb.1 rfl).symm
      | null => exact nomatch hb
      | _ => exact ha.iff_of_code hb (convention_ne nofun)
  | .locals as, b, t, u, ha, hb, ra, rb, ma, mb => by
      cases b with
      | locals bs =>
          cases ha with
          | locals ha =>
          cases hb with
          | locals hb =>
          simp only [CallSig.sigEq, DepictsAll.sigEqList_iff hR as bs ha hb ra rb ma mb,
            SigTree.ofConvention, SigTree.callSig.injEq, List.cons_inj_right, counted_inj ha hb,
            true_and]
      | method => exact ha.iff_of_code hb (masked_ne mb.1 rfl).symm
      | null => exact nomatch hb
      | _ => exact ha.iff_of_code hb (convention_ne nofun)
  | .inst as, b, t, u, ha, hb, ra, rb, ma, mb => by
      cases b with
      | inst bs =>
          cases ha with
          | inst ha =>
          cases hb with
          | inst hb =>
          simp only [CallSig.sigEq, DepictsAll.sigEqList_iff hR as bs ha hb ra rb ma mb,
            SigTree.ofConvention, SigTree.callSig.injEq, List.cons_inj_right, counted_inj ha hb,
            true_and]
      | method => exact ha.iff_of_code hb (masked_ne mb.1 rfl).symm
      | null => exact nomatch hb
      | _ => exact ha.iff_of_code hb (convention_ne nofun)

end

end

end CilCatalog
