import CilCatalog.Proofs.Live.Rows
import CilCatalog.Reading.Reference

/-!
# Equal signatures are read alike

Signatures are compared row by row, by kind and number.  Where these tell the rows apart, reading two signatures that are equal is the same computation (`callSigTree_of_sigEq`).  Which of the two comes first makes no difference (`CallSig.sigEq_symm`).
-/

namespace CilCatalog

open Live

/-- No two rows of the lists have the same key without being one. -/
def TellApart (rs rs' : List Row) : Prop := ∀ r ∈ rs, ∀ r' ∈ rs', r.same r' = true → r = r'

variable {s}

theorem TellApart.left {as bs rs : List Row} (h : TellApart (as ++ bs) rs) : TellApart as rs :=
  fun r hr => h r (List.mem_append_left bs hr)

theorem TellApart.right {as bs rs : List Row} (h : TellApart (as ++ bs) rs) : TellApart bs rs :=
  fun r hr => h r (List.mem_append_right as hr)

theorem TellApart.left' {as bs rs : List Row} (h : TellApart rs (as ++ bs)) : TellApart rs as :=
  fun r hr r' hr' => h r hr r' (List.mem_append_left bs hr')

theorem TellApart.right' {as bs rs : List Row} (h : TellApart rs (as ++ bs)) : TellApart rs bs :=
  fun r hr r' hr' => h r hr r' (List.mem_append_right as hr')

theorem TellApart.tail {r : Row} {rs rs' : List Row} (h : TellApart (r :: rs) rs') :
    TellApart rs rs' :=
  fun a ha => h a (List.mem_cons_of_mem r ha)

theorem TellApart.tail' {r : Row} {rs rs' : List Row} (h : TellApart rs (r :: rs')) :
    TellApart rs rs' :=
  fun a ha b hb => h a ha b (List.mem_cons_of_mem r hb)

/-- A row that is there is among its own rows. -/
theorem Live.Row.mem_rows {r : Row} (h : r.isNull = false) : r ∈ r.rows := by
  cases r with
  | null => exact nomatch h
  | _ => exact List.mem_cons_self

/-- Rows of equal key, which tells them apart, are one. -/
theorem eq_of_same {a b : Row} (h : TellApart a.rows b.rows) (hs : a.same b = true) : a = b := by
  cases ha : a.isNull with
  | true =>
      cases a with
      | null =>
          cases b with
          | null => rfl
          | _ => exact nomatch hs
      | _ => exact nomatch ha
  | false =>
      cases hb : b.isNull with
      | true =>
          cases b with
          | null =>
              cases a with
              | null => rfl
              | _ => exact nomatch hs
          | _ => exact nomatch hb
      | false => exact h a (Row.mem_rows ha) b (Row.mem_rows hb) hs

/-- Rows other than type specifications are compared by their keys. -/
theorem Live.Row.same_of_sigEq {a b : Row} (ha : ∀ i t, a ≠ .typeSpec i t) (h : a.sigEq b = true) :
    a.same b = true := by
  cases a with
  | typeSpec i t => exact absurd rfl (ha i t)
  | _ => simpa only [Row.sigEq] using h

mutual

theorem typeTree_of_sigEq (s : Store) : ∀ a b : Row, TellApart a.rows b.rows → a.sigEq b = true →
    Reading.typeTree s a = Reading.typeTree s b ∧ Reading.namedType s a = Reading.namedType s b
  | .typeSpec i t, b, hab, h => by
      cases b with
      | typeSpec j u =>
          simp only [Row.sigEq, Bool.or_eq_true, beq_iff_eq] at h
          rcases h with rfl | h
          · have : Row.typeSpec i t = .typeSpec i u := eq_of_same hab (beq_self_eq_true _)
            rw [this]
            exact ⟨rfl, rfl⟩
          · exact ⟨typeSigTree_of_sigEq s t u hab.tail.tail' h, rfl⟩
      | _ => simp [Row.sigEq, Row.same, Row.key?] at h
  | .null, b, hab, h | .assemblyRef _ _, b, hab, h | .moduleRef _ _, b, hab, h
  | .typeDef _, b, hab, h | .typeRef _ _ _ _, b, hab, h | .fieldDef _, b, hab, h
  | .methodDef _, b, hab, h | .memberRef _ _ _ _, b, hab, h | .methodSpec _ _ _, b, hab, h => by
      rw [eq_of_same hab (Row.same_of_sigEq nofun h)]
      exact ⟨rfl, rfl⟩

theorem typeSigTree_of_sigEq (s : Store) : ∀ a b : TypeSig, TellApart a.rows b.rows →
    a.sigEq b = true → Reading.typeSigTree s a = Reading.typeSigTree s b
  -- signatures that are the same have the same form, with the same numbers and the same parts
  | .null, b, _, h => by
      cases b with
      | null => rfl
      | _ => simp [TypeSig.sigEq] at h
  | .leaf e he, b, _, h => by
      cases b with
      | leaf f hf =>
          simp only [TypeSig.sigEq, beq_iff_eq] at h
          subst h
          rfl
      | _ => simp [TypeSig.sigEq] at h
  | .wrapper v t, b, hab, h => by
      cases b with
      | wrapper w u =>
          simp only [TypeSig.sigEq, Bool.and_eq_true, beq_iff_eq] at h
          obtain ⟨rfl, h⟩ := h
          simp only [Reading.typeSigTree, typeSigTree_of_sigEq s t u hab h]
      | _ => simp [TypeSig.sigEq] at h
  | .fnPtr c, b, hab, h => by
      cases b with
      | fnPtr d =>
          simp only [TypeSig.sigEq] at h
          simp only [Reading.typeSigTree, callSigTree_of_sigEq s c d hab h]
      | _ => simp [TypeSig.sigEq] at h
  | .named v r, b, hab, h => by
      cases b with
      | named w r' =>
          simp only [TypeSig.sigEq, Bool.and_eq_true, beq_iff_eq] at h
          obtain ⟨rfl, h⟩ := h
          simp only [Reading.typeSigTree, (typeTree_of_sigEq s r r' hab h).2]
      | _ => simp [TypeSig.sigEq] at h
  | .generic v n, b, _, h => by
      cases b with
      | generic w k =>
          simp only [TypeSig.sigEq, Bool.and_eq_true, beq_iff_eq] at h
          obtain ⟨rfl, rfl⟩ := h
          rfl
      | _ => simp [TypeSig.sigEq] at h
  | .array t q ns ls, b, hab, h => by
      cases b with
      | array u r ms ks =>
          simp only [TypeSig.sigEq, Bool.and_eq_true, beq_iff_eq] at h
          obtain ⟨⟨⟨rfl, rfl⟩, rfl⟩, h⟩ := h
          simp only [Reading.typeSigTree, typeSigTree_of_sigEq s t u hab h]
      | _ => simp [TypeSig.sigEq] at h
  | .genericInst t as, b, hab, h => by
      cases b with
      | genericInst u bs =>
          simp only [TypeSig.sigEq, Bool.and_eq_true] at h
          obtain ⟨h, hs⟩ := h
          obtain ⟨htrees, hlen⟩ := typeSigTrees_of_sigEq s as bs hab.right.right' hs
          simp only [Reading.typeSigTree, typeSigTree_of_sigEq s t u hab.left.left' h, htrees,
            Reading.lengthTree, hlen]
      | _ => simp [TypeSig.sigEq] at h
  | .valueArray t n, b, hab, h => by
      cases b with
      | valueArray u k =>
          simp only [TypeSig.sigEq, Bool.and_eq_true, beq_iff_eq] at h
          obtain ⟨rfl, h⟩ := h
          simp only [Reading.typeSigTree, typeSigTree_of_sigEq s t u hab h]
      | _ => simp [TypeSig.sigEq] at h
  | .modifier v r t, b, hab, h => by
      cases b with
      | modifier w r' u =>
          simp only [TypeSig.sigEq, Bool.and_eq_true, beq_iff_eq] at h
          obtain ⟨⟨rfl, hr⟩, h⟩ := h
          simp only [Reading.typeSigTree, (typeTree_of_sigEq s r r' hab.left.left' hr).1,
            typeSigTree_of_sigEq s t u hab.right.right' h]
      | _ => simp [TypeSig.sigEq] at h
  | .module n t, b, hab, h => by
      cases b with
      | module k u =>
          simp only [TypeSig.sigEq, Bool.and_eq_true, beq_iff_eq] at h
          obtain ⟨rfl, h⟩ := h
          simp only [Reading.typeSigTree, typeSigTree_of_sigEq s t u hab h]
      | _ => simp [TypeSig.sigEq] at h

theorem typeSigTrees_of_sigEq (s : Store) : ∀ as bs : List TypeSig,
    TellApart (TypeSig.rowsOf as) (TypeSig.rowsOf bs) → TypeSig.sigEqList as bs = true →
    Reading.typeSigTrees s as = Reading.typeSigTrees s bs ∧ as.length = bs.length
  | [], bs, _, h => by
      cases bs with
      | nil => exact ⟨rfl, rfl⟩
      | cons b bs => simp [TypeSig.sigEqList] at h
  | a :: as, bs, hab, h => by
      cases bs with
      | nil => simp [TypeSig.sigEqList] at h
      | cons b bs =>
          simp only [TypeSig.sigEqList, Bool.and_eq_true] at h
          obtain ⟨h, hs⟩ := h
          obtain ⟨htrees, hlen⟩ := typeSigTrees_of_sigEq s as bs hab.right.right' hs
          refine ⟨?_, congrArg (· + 1) hlen⟩
          simp only [Reading.typeSigTrees, typeSigTree_of_sigEq s a b hab.left.left' h, htrees]

/-- Signatures that are equal are read alike. -/
theorem callSigTree_of_sigEq (s : Store) : ∀ a b : CallSig, TellApart a.rows b.rows →
    a.sigEq b = true → Reading.callSigTree s a = Reading.callSigTree s b
  | .null, b, _, h => by
      cases b with
      | null => rfl
      | _ => simp [CallSig.sigEq] at h
  | .method q _ n t ps vs, b, hab, h => by
      cases b with
      | method r _ k u us ws =>
          simp only [CallSig.sigEq, Bool.and_eq_true, beq_iff_eq] at h
          obtain ⟨⟨⟨⟨rfl, rfl⟩, ht⟩, hps⟩, hvs⟩ := h
          simp only [Reading.callSigTree, typeSigTree_of_sigEq s t u hab.left.left.left'.left' ht,
            (typeSigTrees_of_sigEq s ps us hab.left.right.left'.right' hps).1,
            (typeSigTrees_of_sigEq s vs ws hab.right.right' hvs).1]
      | _ => simp [CallSig.sigEq] at h
  | .field t, b, hab, h => by
      cases b with
      | field u =>
          simp only [CallSig.sigEq] at h
          simp only [Reading.callSigTree, typeSigTree_of_sigEq s t u hab h]
      | _ => simp [CallSig.sigEq] at h
  | .locals ts, b, hab, h => by
      cases b with
      | locals us =>
          simp only [CallSig.sigEq] at h
          obtain ⟨htrees, hlen⟩ := typeSigTrees_of_sigEq s ts us hab h
          simp only [Reading.callSigTree, htrees, Reading.lengthTree, hlen]
      | _ => simp [CallSig.sigEq] at h
  | .inst ts, b, hab, h => by
      cases b with
      | inst us =>
          simp only [CallSig.sigEq] at h
          obtain ⟨htrees, hlen⟩ := typeSigTrees_of_sigEq s ts us hab h
          simp only [Reading.callSigTree, htrees, Reading.lengthTree, hlen]
      | _ => simp [CallSig.sigEq] at h

end

/-! ### Equality of signatures is symmetric -/

namespace Live

mutual

theorem Row.sigEq_symm : ∀ a b : Row, a.sigEq b = true → b.sigEq a = true
  | .typeSpec i t, b, h => by
      cases b with
      | typeSpec j u =>
          simp only [Row.sigEq, Bool.or_eq_true, beq_iff_eq] at h ⊢
          exact h.imp Eq.symm (TypeSig.sigEq_symm t u)
      | _ => simp [Row.sigEq, Row.same, Row.key?] at h
  | .null, b, h | .assemblyRef _ _, b, h | .moduleRef _ _, b, h | .typeDef _, b, h
  | .typeRef _ _ _ _, b, h | .fieldDef _, b, h | .methodDef _, b, h | .memberRef _ _ _ _, b, h
  | .methodSpec _ _ _, b, h => by
      cases b with
      | typeSpec j u => simp [Row.sigEq, Row.same, Row.key?] at h
      | _ =>
          simp only [Row.sigEq] at h ⊢
          exact BEq.symm h

theorem TypeSig.sigEq_symm : ∀ a b : TypeSig, a.sigEq b = true → b.sigEq a = true
  -- by the form of the first signature; the second has the same one, or the two are not the same
  | .null, b, h => by
      cases b with
      | null => exact h
      | _ => simp [TypeSig.sigEq] at h
  | .leaf e _, b, h => by
      cases b with
      | leaf f _ =>
          simp only [TypeSig.sigEq, beq_iff_eq] at h ⊢
          exact h.symm
      | _ => simp [TypeSig.sigEq] at h
  | .wrapper v s, b, h => by
      cases b with
      | wrapper w t =>
          simp only [TypeSig.sigEq, Bool.and_eq_true, beq_iff_eq] at h ⊢
          exact ⟨h.1.symm, TypeSig.sigEq_symm s t h.2⟩
      | _ => simp [TypeSig.sigEq] at h
  | .fnPtr c, b, h => by
      cases b with
      | fnPtr d =>
          simp only [TypeSig.sigEq] at h ⊢
          exact CallSig.sigEq_symm c d h
      | _ => simp [TypeSig.sigEq] at h
  | .named v r, b, h => by
      cases b with
      | named w q =>
          simp only [TypeSig.sigEq, Bool.and_eq_true, beq_iff_eq] at h ⊢
          exact ⟨h.1.symm, Row.sigEq_symm r q h.2⟩
      | _ => simp [TypeSig.sigEq] at h
  | .generic v m, b, h => by
      cases b with
      | generic w n =>
          simp only [TypeSig.sigEq, Bool.and_eq_true, beq_iff_eq] at h ⊢
          exact ⟨h.1.symm, h.2.symm⟩
      | _ => simp [TypeSig.sigEq] at h
  | .array s q ms ls, b, h => by
      cases b with
      | array t r ns ks =>
          simp only [TypeSig.sigEq, Bool.and_eq_true, beq_iff_eq] at h ⊢
          exact ⟨⟨⟨h.1.1.1.symm, h.1.1.2.symm⟩, h.1.2.symm⟩, TypeSig.sigEq_symm s t h.2⟩
      | _ => simp [TypeSig.sigEq] at h
  | .genericInst s as, b, h => by
      cases b with
      | genericInst t bs =>
          simp only [TypeSig.sigEq, Bool.and_eq_true] at h ⊢
          exact ⟨TypeSig.sigEq_symm s t h.1, TypeSig.sigEqList_symm as bs h.2⟩
      | _ => simp [TypeSig.sigEq] at h
  | .valueArray s m, b, h => by
      cases b with
      | valueArray t n =>
          simp only [TypeSig.sigEq, Bool.and_eq_true, beq_iff_eq] at h ⊢
          exact ⟨h.1.symm, TypeSig.sigEq_symm s t h.2⟩
      | _ => simp [TypeSig.sigEq] at h
  | .modifier v r s, b, h => by
      cases b with
      | modifier w q t =>
          simp only [TypeSig.sigEq, Bool.and_eq_true, beq_iff_eq] at h ⊢
          exact ⟨⟨h.1.1.symm, Row.sigEq_symm r q h.1.2⟩, TypeSig.sigEq_symm s t h.2⟩
      | _ => simp [TypeSig.sigEq] at h
  | .module m s, b, h => by
      cases b with
      | module n t =>
          simp only [TypeSig.sigEq, Bool.and_eq_true, beq_iff_eq] at h ⊢
          exact ⟨h.1.symm, TypeSig.sigEq_symm s t h.2⟩
      | _ => simp [TypeSig.sigEq] at h

theorem TypeSig.sigEqList_symm : ∀ as bs : List TypeSig,
    TypeSig.sigEqList as bs = true → TypeSig.sigEqList bs as = true
  | [], bs, h => by
      cases bs with
      | nil => exact h
      | cons b bs => simp [TypeSig.sigEqList] at h
  | a :: as, bs, h => by
      cases bs with
      | nil => simp [TypeSig.sigEqList] at h
      | cons b bs =>
          simp only [TypeSig.sigEqList, Bool.and_eq_true] at h ⊢
          exact ⟨TypeSig.sigEq_symm a b h.1, TypeSig.sigEqList_symm as bs h.2⟩

/-- Whether signatures are equal does not depend on which comes first. -/
theorem CallSig.sigEq_symm : ∀ a b : CallSig, a.sigEq b = true → b.sigEq a = true
  | .null, b, h => by
      cases b with
      | null => exact h
      | _ => simp [CallSig.sigEq] at h
  | .method q _ m r ps vs, b, h => by
      cases b with
      | method s _ n t us ws =>
          simp only [CallSig.sigEq, Bool.and_eq_true, beq_iff_eq] at h ⊢
          obtain ⟨⟨⟨⟨hq, hm⟩, hr⟩, hps⟩, hvs⟩ := h
          exact ⟨⟨⟨⟨hq.symm, hm.symm⟩, TypeSig.sigEq_symm r t hr⟩,
            TypeSig.sigEqList_symm ps us hps⟩, TypeSig.sigEqList_symm vs ws hvs⟩
      | _ => simp [CallSig.sigEq] at h
  | .field s, b, h => by
      cases b with
      | field t =>
          simp only [CallSig.sigEq] at h ⊢
          exact TypeSig.sigEq_symm s t h
      | _ => simp [CallSig.sigEq] at h
  | .locals as, b, h => by
      cases b with
      | locals bs =>
          simp only [CallSig.sigEq] at h ⊢
          exact TypeSig.sigEqList_symm as bs h
      | _ => simp [CallSig.sigEq] at h
  | .inst as, b, h => by
      cases b with
      | inst bs =>
          simp only [CallSig.sigEq] at h ⊢
          exact TypeSig.sigEqList_symm as bs h
      | _ => simp [CallSig.sigEq] at h

end

/-- Signatures that are equal start with one octet. -/
theorem CallSig.raw_of_sigEq {a b : CallSig} (h : a.sigEq b = true) : a.raw = b.raw := by
  cases a <;> cases b <;> simp_all [CallSig.sigEq, CallSig.raw]

end Live

end CilCatalog
