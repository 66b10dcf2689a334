import CilCatalog.Proofs.Partition
import CilCatalog.Proofs.Writing.Depicted

/-!
# Signatures that are written have a text

The writer checks the arguments of a signature by itself while it goes through them, and the text form checks them once more.  They disagree about nothing but the marker among the parameters: the writer steps over it, although it has arguments, or no parameter follows.  So a tree that a signature is made of has a text, and is read from one, exactly if its markers are in order (`formattable_iff_of_written`).
-/

namespace CilCatalog

open Live Writing

/-! ### Markers -/

/-- Whether each marker among some parameters has no arguments and something behind it. -/
def markersInOrder : List SigTree → Bool
  | []      => true
  | p :: ps => (!p.isSentinel || (p == .ofElement .sentinel && !ps.isEmpty)) && markersInOrder ps

namespace SigTree

/-- What a signature has behind its flags, its numbers and the type of what is returned. -/
def parameters : SigTree → List SigTree
  | callSig code (int32 flags :: as) =>
      if (CallingConvention.ofCode? code).any CallingConvention.isMethodLike then
        as.drop (if hasGenericFlag flags then 3 else 2)
      else []
  | _ => []

mutual

/-- A tree and all that is below it. -/
def nodes : SigTree → List SigTree
  | token t        => [token t]
  | typeSig c as   => typeSig c as :: nodesOfAll as
  | callSig c as   => callSig c as :: nodesOfAll as
  | int32 v        => [int32 v]
  | methodSpec m i => methodSpec m i :: (m.nodes ++ i.nodes)
  | inline k o     => inline k o :: o.nodes

def nodesOfAll : List SigTree → List SigTree
  | []      => []
  | a :: as => a.nodes ++ nodesOfAll as

end

/-- All markers of a tree are in order, those of the signatures within it included. -/
def InOrder (t : SigTree) : Prop := ∀ s ∈ t.nodes, markersInOrder s.parameters = true

instance (t : SigTree) : Decidable t.InOrder :=
  inferInstanceAs (Decidable (∀ s ∈ t.nodes, markersInOrder s.parameters = true))

theorem mem_nodesOfAll {s : SigTree} {as : List SigTree} :
    s ∈ nodesOfAll as ↔ ∃ a ∈ as, s ∈ a.nodes := by
  induction as with
  | nil => simp [nodesOfAll]
  | cons a as ih => simp [nodesOfAll, ih]

theorem mem_nodes {s t : SigTree} : s ∈ t.nodes ↔ s = t ∨ ∃ a ∈ t.args, s ∈ a.nodes := by
  cases t <;> simp [nodes, args, mem_nodesOfAll]

theorem InOrder.self {t : SigTree} (h : t.InOrder) : markersInOrder t.parameters = true :=
  h t (mem_nodes.2 (.inl rfl))

theorem InOrder.args {t : SigTree} (h : t.InOrder) : ∀ a ∈ t.args, a.InOrder :=
  fun a ha s hs => h s (mem_nodes.2 (.inr ⟨a, ha, hs⟩))

end SigTree

theorem markersInOrder_of_forall {ps : List SigTree} (h : ∀ p ∈ ps, p.isSentinel = false) :
    markersInOrder ps = true := by
  induction ps with
  | nil => rfl
  | cons p ps ih =>
      rw [List.forall_mem_cons] at h
      rw [markersInOrder, h.1, ih h.2]
      rfl

/-- Of a marker it matters what is behind it, and not what is before it. -/
theorem markersInOrder_append {ps vs : List SigTree} {m : SigTree}
    (hp : ∀ p ∈ ps, p.isSentinel = false) (hm : m.isSentinel = true) :
    markersInOrder (ps ++ m :: vs) = true ↔
      m = .ofElement .sentinel ∧ vs ≠ [] ∧ markersInOrder vs = true := by
  induction ps with
  | nil => simp [markersInOrder, hm, and_assoc]
  | cons p ps ih =>
      rw [List.forall_mem_cons] at hp
      rw [List.cons_append, markersInOrder, hp.1, ← ih hp.2]
      rfl

theorem Parameters.markersInOrder {n : Nat} {ps : List SigTree} (h : Parameters n ps)
    (hform : ∀ p ∈ ps, p.Formattable) : CilCatalog.markersInOrder ps = true := by
  cases h with
  | plain _ hp => exact markersInOrder_of_forall hp
  | variadic _ hp hm hne hv =>
      have bare := SigTree.eq_sentinel (hform _ (by simp)) hm
      exact (markersInOrder_append hp hm).2 ⟨bare, hne, markersInOrder_of_forall hv⟩

/-- What a single slot takes fits. -/
theorem Slot.Takes.fits {s : Slot} {as : List SigTree} (h : s.Takes as) : Shape.Fits [s] as := by
  have := Shape.Fits.cons h .nil
  rwa [List.append_nil] at this

theorem Shape.parameters_behind {as : List SigTree} (h : Fits [.parameters] as) :
    ∃ n, Parameters n (as.drop 2) := by
  obtain ⟨bs, _, rfl, hb, hnil⟩ := fits_cons h
  cases hnil
  cases hb with
  | parameters _ hp => exact ⟨_, by simpa using hp⟩

/-- What fits a method has its parameters where they are looked for. -/
theorem CallingConvention.parameters_of_fits {k : CallingConvention} {flags : Int32}
    {as : List SigTree} (hk : k.isMethodLike = true) (h : (k.shape flags).Fits as) :
    ∃ n, Parameters n (as.drop (if hasGenericFlag flags then 3 else 2)) := by
  rw [shape_of_isMethodLike hk] at h
  by_cases hg : hasGenericFlag flags = true
  · rw [if_pos hg] at h ⊢
    obtain ⟨bs, rest, rfl, hb, hrest⟩ := Shape.fits_cons h
    cases hb with
    | count => exact Shape.parameters_behind hrest
  · rw [if_neg hg] at h ⊢
    exact Shape.parameters_behind h

/-- Where there is a text, the markers are in order. -/
theorem SigTree.Formattable.inOrder {t : SigTree} (ht : t.Formattable) : t.InOrder := by
  induction t using SigTree.induction with
  | h t ih =>
    intro s hs
    rcases SigTree.mem_nodes.1 hs with rfl | ⟨a, ha, hs⟩
    · cases s with
      | callSig code as =>
          obtain ⟨k, flags, rest, hcode, rfl, hfits⟩ := SigTree.fits_of_formattable ht
          have hargs : ∀ a ∈ rest, a.Formattable := fun a ha => ht.args a (List.mem_cons_of_mem _ ha)
          rw [SigTree.parameters, hcode, Option.any_some]
          by_cases hk : k.isMethodLike = true
          · rw [if_pos hk]
            obtain ⟨n, hp⟩ := CallingConvention.parameters_of_fits hk hfits
            exact hp.markersInOrder fun p h => hargs p (List.mem_of_mem_drop h)
          · rw [if_neg hk]
            rfl
      | _ => rfl
    · exact ih a ha (ht.args a ha) s hs

/-! ### Texts of arguments -/

namespace SigTree

/-- The tokens of a map are names, or indices that are not negative. -/
theorem formattable_token {named : Bool} {α : Type} {m : TokenMap named α} {t : Token} {a : α}
    (h : m.get? t = some a) : (token t).Formattable := by
  cases t with
  | named n => exact ⟨_, rfl⟩
  | index i =>
      have hmem : .index i ∈ m.keys := TokenMap.mem_keys_of_get? h
      have hkeys := m.wellKeyed
      obtain ⟨ks, ls, heq⟩ := List.append_of_mem hmem
      rw [show m.entries.map Prod.fst = _ from heq] at hkeys
      cases named with
      | true => exact nomatch hkeys.1 (.index i) (by simp)
      | false =>
          -- an index is the place of its entry
          obtain ⟨hi, hlt⟩ := index_of_wellKeyed hkeys
          cases hi
          have hnot : ¬ Int32.ofNat ks.length < 0 := by
            rw [Int32.lt_iff_toInt_lt, Int32.toInt_ofNat_of_lt hlt, Int32.toInt_zero]
            omega
          exact ⟨_, if_neg hnot⟩

end SigTree

/-! ### What is checked -/

variable {α β : Type} {c : Catalog}

/-- Whatever the computation gives, and in whatever state, the property holds of it. -/
def Ensures (x : Writing α) (P : α → Prop) : Prop := ∀ w a w', Gives x w a w' → P a

namespace Ensures

variable {P : α → Prop} {Q : β → Prop} {x : Writing α}

theorem pure {a : α} (h : P a) : Ensures (Pure.pure a) P := by
  intro w b w' hb
  obtain ⟨rfl, -⟩ := gives_pure.1 hb
  exact h

theorem refuse {f : WriteFault} : Ensures (Writing.refuse f) P :=
  fun _ _ _ h => absurd h gives_refuseWrite

theorem bind {f : α → Writing β} (hx : Ensures x P) (hf : ∀ a, P a → Ensures (f a) Q) :
    Ensures (x >>= f) Q := by
  intro w b w' h
  obtain ⟨a, w₁, ha, hb⟩ := gives_bind.1 h
  exact hf a (hx _ _ _ ha) _ _ _ hb

theorem bind_argument {r : Except (Failure ArgumentFault) α} {f : α → Writing β}
    (hf : ∀ a, r = .ok a → Ensures (f a) Q) : Ensures (Writing.argument r >>= f) Q := by
  intro w b w' h
  obtain ⟨a, ha, hb⟩ := gives_bind_argument.1 h
  exact hf a ha _ _ _ hb

theorem guard {p : Prop} [Decidable p] {f : WriteFault} {k : PUnit → Writing α}
    (hk : ¬ p → Ensures (k ⟨⟩) P) : Ensures (if p then Writing.refuse f >>= k else k ⟨⟩) P := by
  intro w a w' h
  obtain ⟨hp, ha⟩ := gives_guard.1 h
  exact hk hp _ _ _ ha

theorem ite {p : Prop} [Decidable p] {y : Writing α} (hx : p → Ensures x P)
    (hy : ¬ p → Ensures y P) : Ensures (if p then x else y) P := by
  split
  · next h => exact hx h
  · next h => exact hy h

theorem imp {P' : α → Prop} (hx : Ensures x P) (h : ∀ a, P a → P' a) : Ensures x P' :=
  fun _ _ _ hg => h _ (hx _ _ _ hg)

end Ensures

/-- What the tree is written as, if anything, makes sure that it has a text. -/
structure Checked (c : Catalog) (t : SigTree) : Prop where
  row : Ensures (rowOfTree c t) fun _ => t.Formattable
  type : Ensures (typeSigOf c t) fun _ => t.Formattable
  call : Ensures (callSigOf c t) fun _ => t.Formattable

namespace Checked

open Ensures (refuse bind_argument guard ite)
open SigTree (formattable_one formattable_pair)

theorem typeOfToken (t : Token) :
    Ensures (Writing.typeOfToken c t) fun _ => (SigTree.token t).Formattable := by
  intro w r w' h
  obtain ⟨e, he, -⟩ := gives_bind_lookUp.1 h
  exact SigTree.formattable_token he

theorem typeSigsOf {as : List SigTree} (h : ∀ a ∈ as, Checked c a) :
    Ensures (Writing.typeSigsOf c as) fun sigs =>
      sigs.length = as.length ∧ ∀ a ∈ as, a.Formattable := by
  induction as with
  | nil => exact .pure ⟨rfl, List.forall_mem_nil _⟩
  | cons a as ih =>
      rw [List.forall_mem_cons] at h
      exact h.1.type.bind fun _ ha => (ih h.2).bind fun _ has =>
        .pure ⟨congrArg Nat.succ has.1, List.forall_mem_cons.2 ⟨ha, has.2⟩⟩

/-- The dimensions of an array fit, and are integers. -/
theorem fits_of_ofArguments {as : List SigTree} {shape : ArrayShape}
    (h : ArrayShape.ofArguments as = .ok shape) :
    Shape.Fits [.integer, .integers, .integers] as ∧ ∀ a ∈ as, a.Formattable := by
  obtain ⟨a, b, d, read, rfl⟩ := read_of_ofArguments h
  obtain ⟨_, _, ha⟩ := read.rank
  obtain ⟨_, _, m, hb, hm⟩ := read.sizes
  obtain ⟨_, _, n, hd, hn⟩ := read.lowerBounds
  obtain ⟨rank, rfl, -⟩ := int32_of_unsignedOf ha
  obtain ⟨sizes, rfl, hsizes⟩ := int32_of_unsignedOf hb
  obtain ⟨bounds, rfl, hbounds⟩ := int32_of_unsignedOf hd
  have ints : ∀ vs : List Int32, ∀ a ∈ vs.map SigTree.int32, a.Formattable := by
    simp [SigTree.formattable_int32]
  rw [show (shape.sizes.map fun n => SigTree.int32 n.toInt32) =
    (shape.sizes.map UInt32.toInt32).map .int32 from (List.map_map ..).symm]
  constructor
  · have lower : Slot.integers.Takes (.int32 bounds :: shape.lowerBounds.map .int32) :=
      .integers (by rw [hbounds, hn])
    have upper : Slot.integers.Takes (.int32 sizes :: (shape.sizes.map UInt32.toInt32).map .int32) :=
      .integers (by rw [hsizes, hm, List.length_map])
    exact @Shape.Fits.cons .integer _ [.int32 rank] _ (.integer rank) (.cons upper lower.fits)
  · simp only [List.cons_append, List.forall_mem_cons, List.forall_mem_append]
    exact ⟨⟨_, rfl⟩, ⟨_, rfl⟩, ints _, ⟨_, rfl⟩, ints _⟩

theorem typeSigOfCode {code : UInt8} {as : List SigTree} (h : ∀ a ∈ as, Checked c a) :
    Ensures (Writing.typeSigOfCode c code as) fun _ => (SigTree.typeSig code as).Formattable := by
  rw [Writing.typeSigOfCode_eq]
  split
  · exact refuse
  · next e he =>
    obtain rfl := ElementType.code_of_ofCode? he
    split
    · next hleaf =>
        refine bind_argument fun _ hcount => .pure ?_
        obtain rfl := List.length_eq_zero_iff.1 (eq_of_checkCount hcount).symm
        exact SigTree.formattable_ofElement (.inl ⟨hleaf, rfl⟩) (List.forall_mem_nil _)
    · -- the element types in the order of the writer, which refuses any other number of arguments
      split
      all_goals first
        | exact refuse
        | simp only [List.forall_mem_cons] at h
      · exact h.1.type.bind fun _ ht => .pure (formattable_one rfl (Slot.Takes.node _).fits ht)
      · exact h.1.type.bind fun _ ht => .pure (formattable_one rfl (Slot.Takes.node _).fits ht)
      · exact h.1.type.bind fun _ ht => .pure (formattable_one rfl (Slot.Takes.node _).fits ht)
      · exact h.1.type.bind fun _ ht => .pure (formattable_one rfl (Slot.Takes.node _).fits ht)
      · exact h.1.call.bind fun _ ht =>
          ite (fun _ => .pure (formattable_one rfl (Slot.Takes.node _).fits ht)) fun _ => refuse
      · exact (typeOfToken _).bind fun _ ht => .pure (formattable_one rfl (Slot.Takes.node _).fits ht)
      · exact (typeOfToken _).bind fun _ ht => .pure (formattable_one rfl (Slot.Takes.node _).fits ht)
      · refine bind_argument fun _ hn => .pure ?_
        obtain ⟨n, rfl, -⟩ := int32_of_unsignedOf hn
        exact formattable_one rfl (Slot.Takes.integer n).fits ⟨_, rfl⟩
      · refine bind_argument fun _ hn => .pure ?_
        obtain ⟨n, rfl, -⟩ := int32_of_unsignedOf hn
        exact formattable_one rfl (Slot.Takes.integer n).fits ⟨_, rfl⟩
      · refine h.1.type.bind fun _ ht => bind_argument fun _ hshape => .pure ?_
        obtain ⟨hfits, hints⟩ := fits_of_ofArguments hshape
        exact SigTree.formattable_ofElement (.inr ⟨rfl, .cons (.node _) hfits⟩)
          (List.forall_mem_cons.2 ⟨ht, hints⟩)
      · exact h.1.type.bind fun _ _ => refuse
      · refine h.1.type.bind fun _ ht => bind_argument fun _ hn => bind_argument fun _ hcheck =>
          (typeSigsOf h.2.2).bind fun _ hts => .pure ?_
        obtain ⟨n, rfl, hlength⟩ := int32_of_unsignedOf hn
        have hcount := Nat.add_left_cancel (eq_of_checkCount hcheck)
        exact SigTree.formattable_ofElement
          (.inr ⟨rfl, .cons (.node _) (Slot.Takes.nodes (by rw [hlength, hcount])).fits⟩)
          (List.forall_mem_cons.2 ⟨ht, List.forall_mem_cons.2 ⟨⟨_, rfl⟩, hts.2⟩⟩)
      · refine h.1.type.bind fun _ ht => bind_argument fun _ hn => .pure ?_
        obtain ⟨n, rfl, -⟩ := int32_of_unsignedOf hn
        exact formattable_pair rfl (.cons (.node _) (Slot.Takes.integer n).fits) ht ⟨_, rfl⟩
      · exact h.1.row.bind fun _ hm => h.2.1.type.bind fun _ ht =>
          .pure (formattable_pair rfl (.cons (.node _) (Slot.Takes.node _).fits) hm ht)
      · exact h.1.row.bind fun _ hm => h.2.1.type.bind fun _ ht =>
          .pure (formattable_pair rfl (.cons (.node _) (Slot.Takes.node _).fits) hm ht)
      · refine bind_argument fun _ hn => h.2.1.type.bind fun _ ht => .pure ?_
        obtain ⟨n, rfl, -⟩ := int32_of_unsignedOf hn
        exact formattable_pair rfl (.cons (.integer n) (Slot.Takes.node _).fits) ⟨_, rfl⟩ ht

/-- Parameters with markers in order are counted as the text form counts them. -/
theorem parametersOf {as : List SigTree} (h : ∀ a ∈ as, Checked c a)
    (hm : markersInOrder as = true) : Ensures (Writing.parametersOf c false as) fun p =>
      Parameters (p.1.length + p.2.length) as ∧ ∀ a ∈ as, a.Formattable := by
  rintro w ⟨params, after⟩ w' hg
  rcases gives_parametersOf hg with
    ⟨hne, rfl, hps⟩ | ⟨ps, m, vs, w₁, rfl, hmark, hps, hvs, hg₁, hg₂⟩
  · obtain ⟨hlength, hform⟩ := typeSigsOf h _ _ _ hps
    exact ⟨.plain hlength.symm hne, hform⟩
  · obtain ⟨rfl, hne, -⟩ := (markersInOrder_append hps hmark).1 hm
    obtain ⟨hl₁, hform₁⟩ := typeSigsOf (fun a ha => h a (by simp [ha])) _ _ _ hg₁
    obtain ⟨hl₂, hform₂⟩ := typeSigsOf (fun a ha => h a (by simp [ha])) _ _ _ hg₂
    refine ⟨.variadic (by rw [hl₁, hl₂]) hps hmark hne hvs, fun a ha => ?_⟩
    -- the marker alone is not written, and has its text from being in order
    rcases List.mem_append.1 ha with ha | ha
    · exact hform₁ a ha
    · rcases List.mem_cons.1 ha with rfl | ha
      · exact ⟨_, rfl⟩
      · exact hform₂ a ha

theorem methodSigOf {k : CallingConvention} (hk : k.isMethodLike = true) {f : UInt8}
    (hf : f &&& CallingConvention.mask = 0) {g : UInt32} {i : Nat} {as : List SigTree}
    (h : ∀ a ∈ as, Checked c a) (hm : markersInOrder (as.drop 2) = true) :
    Ensures (Writing.methodSigOf c k f g i as) fun _ =>
      Shape.Fits [.parameters] as ∧ ∀ a ∈ as, a.Formattable := by
  rw [Writing.methodSigOf_eq hk hf]
  split
  · exact refuse
  · exact bind_argument fun _ _ => refuse
  · next n r ts =>
      simp only [List.forall_mem_cons] at h
      refine bind_argument fun _ hn => h.2.1.type.bind fun _ hr =>
        (parametersOf h.2.2 hm).bind fun p hp => guard fun hcount => .pure ?_
      obtain ⟨n, rfl, hnat⟩ := int32_of_unsignedOf hn
      constructor
      · exact (Slot.Takes.parameters (by rw [hnat, not_not.1 hcount]) hp.1).fits
      · simp only [List.forall_mem_cons]
        exact ⟨⟨_, rfl⟩, hr, hp.2⟩

theorem countedTypesOf {k : CallingConvention} {as : List SigTree} (h : ∀ a ∈ as, Checked c a) :
    Ensures (Writing.countedTypesOf c k as) fun _ =>
      Shape.Fits [.nodes] as ∧ ∀ a ∈ as, a.Formattable := by
  rw [Writing.countedTypesOf_eq]
  split
  · exact refuse
  · next n ts =>
      rw [List.forall_mem_cons] at h
      refine bind_argument fun _ hn => bind_argument fun _ hcheck =>
        (typeSigsOf h.2).imp fun _ hts => ?_
      obtain ⟨n, rfl, hlength⟩ := int32_of_unsignedOf hn
      have hcount := Nat.add_left_cancel (eq_of_checkCount hcheck)
      exact ⟨(Slot.Takes.nodes (by rw [hlength, hcount])).fits,
        List.forall_mem_cons.2 ⟨⟨_, rfl⟩, hts.2⟩⟩

theorem callSigOf {code : UInt8} {as : List SigTree} (h : ∀ a ∈ as, Checked c a)
    (hm : markersInOrder (SigTree.callSig code as).parameters = true) :
    Ensures (Writing.callSigOf c (.callSig code as)) fun _ =>
      (SigTree.callSig code as).Formattable := by
  rw [Writing.callSigOf_eq]
  split
  · exact refuse
  · exact refuse
  · next k a as hcode =>
    obtain rfl := CallingConvention.code_of_ofCode? hcode
    rw [List.forall_mem_cons] at h
    refine bind_argument fun flags hn => ?_
    obtain rfl := tree_of_integerOf hn
    rw [SigTree.parameters, hcode, Option.any_some] at hm
    cases hf : flagsOf flags with
    | none => exact refuse
    | some f =>
      dsimp only
      have done : (k.shape flags).Fits as ∧ (∀ a ∈ as, a.Formattable) →
          (SigTree.callSig k.code (.int32 flags :: as)).Formattable :=
        fun h => SigTree.formattable_ofConvention h.1 h.2
      split
      · next hk =>
        -- the writer and the shape look at the same bit to find the parameters
        rw [CallingConvention.shape_of_isMethodLike hk, hasGenericFlag_of_flagsOf hf] at done
        rw [if_pos hk, hasGenericFlag_of_flagsOf hf] at hm
        split
        · next hflag =>
            rw [hflag] at hm done
            exact (methodSigOf hk (mask_of_flagsOf hf) h.2 hm).imp fun _ hsig => done hsig
        · next hflag =>
            rw [if_pos (by simpa using hflag)] at hm done
            split
            · exact refuse
            · next n as =>
                simp only [List.forall_mem_cons] at h
                refine bind_argument fun _ hn => (methodSigOf hk (mask_of_flagsOf hf) h.2.2 hm).imp fun _ hsig => done ?_
                obtain ⟨n, rfl, hnat⟩ := int32_of_unsignedOf hn
                exact ⟨.cons (.count (hnat ▸ Int.natCast_nonneg _)) hsig.1,
                  List.forall_mem_cons.2 ⟨⟨_, rfl⟩, hsig.2⟩⟩
      · next hk =>
        refine ite (fun _ => refuse) fun hflags => ?_
        split
        · simp only [List.forall_mem_cons] at h
          exact h.2.1.type.bind fun _ ht =>
            .pure (done ⟨(Slot.Takes.node _).fits, List.forall_mem_singleton.2 ht⟩)
        · exact refuse
        · exact (countedTypesOf h.2).bind fun _ hts => .pure (done hts)
        · next hfield hlocals _ =>
            obtain rfl : k = .genericInst := by
              cases k <;> first | rfl | exact absurd rfl hk | exact (hfield rfl).elim |
                exact (hlocals rfl).elim
            exact (countedTypesOf h.2).bind fun _ hts => .pure (done hts)

end Checked

/-- What a tree with markers in order is written as makes sure that it has a text. -/
theorem checked (c : Catalog) {t : SigTree} (ht : t.InOrder) : Checked c t := by
  induction t using SigTree.induction with
  | h t ih =>
      have hargs : ∀ a ∈ t.args, Checked c a := fun a ha => ih a ha (ht.args a ha)
      constructor
      · unfold rowOfTree
        split
        · exact Checked.typeOfToken _
        · exact (Checked.typeSigOfCode hargs).bind fun _ h _ _ _ _ => h
        · exact .refuse
      · unfold typeSigOf
        split
        · exact Checked.typeSigOfCode hargs
        · exact .refuse
      · cases t with
        | callSig => exact Checked.callSigOf hargs ht.self
        | _ => exact .refuse

/-- A tree that the writer has made a signature of has a text, and is read from one, exactly if its markers are in order. -/
theorem formattable_iff_of_written {c : Catalog} {t : SigTree} {w : WriteState}
    (h : (typeSigOf c t w).1.isOk = true ∨ (callSigOf c t w).1.isOk = true) :
    (t.Formattable ↔ t.InOrder) ∧ ((∃ s, SigTree.parse s = .ok t) ↔ t.InOrder) := by
  have formattable : t.Formattable ↔ t.InOrder := by
    refine ⟨SigTree.Formattable.inOrder, fun ht => ?_⟩
    rcases h with h | h
    · obtain ⟨sig, hg⟩ := gives_of_isOk h
      exact (checked c ht).type _ _ _ hg
    · obtain ⟨sig, hg⟩ := gives_of_isOk h
      exact (checked c ht).call _ _ _ hg
  exact ⟨formattable, SigTree.exists_parse_iff.trans formattable⟩

/-- A writer that has written nothing and answers for itself, and its module. -/
def untouched : WriteState :=
  ⟨(Store.empty.createImage "M").2, .start ⟨0⟩ ⟨none, none⟩⟩

/-- A signature with a marker that the parameter is behind. -/
def markedSig : SigTree :=
  .ofConvention .varArg [.int32 0, .int32 1, .ofElement .void, .ofElement .sentinel, .ofElement .i4]

theorem formattable_iff_of_written_marked :
    (callSigOf (.empty .default) markedSig untouched).1.isOk = true ∧
      markedSig.Formattable ∧ ∃ s, SigTree.parse s = .ok markedSig := by
  have written : (callSigOf (.empty .default) markedSig untouched).1.isOk = true := rfl
  obtain ⟨text, parsed⟩ := formattable_iff_of_written (.inr written)
  have order : markedSig.InOrder := by decide
  exact ⟨written, text.2 order, parsed.2 order⟩

/-- The writer does not look at the arguments of a marker. -/
example :
    let t : SigTree := .ofConvention .varArg [.int32 0, .int32 1, .ofElement .void,
      .ofElement .sentinel [.ofElement .i4], .ofElement .i4]
    (callSigOf (.empty .default) t untouched).1.isOk = true ∧ ¬ t.InOrder :=
  ⟨rfl, by decide⟩

/-- A signature with a marker and no parameters. -/
def trailingSig : SigTree :=
  .ofConvention .standard [.int32 0, .int32 0, .ofElement .void, .ofElement .sentinel]

/-- Not everything that is written has a text. -/
theorem not_formattable_of_written : ¬ ∀ (c : Catalog) (t : SigTree) (w : WriteState),
    w.writer.hooks = ⟨none, none⟩ →
      (typeSigOf c t w).1.isOk = true ∨ (callSigOf c t w).1.isOk = true → t.Formattable := by
  intro h
  obtain ⟨s, hs⟩ := h (.empty .default) trailingSig untouched rfl (.inr rfl)
  exact nomatch hs

end CilCatalog
