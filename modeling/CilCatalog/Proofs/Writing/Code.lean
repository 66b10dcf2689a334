import CilCatalog.Proofs.Reading.References
import CilCatalog.Proofs.Writing.Contracts
import CilCatalog.Reading.Body
import CilCatalog.Writing.Body

/-!
# Operands without rows

Instruction numbers, variables, literals and opcodes are written without a change of the module, and read as they are without a reader (`gives_operand`).  Rows and signatures remain (`operand_eq_or_inert`).
-/

namespace CilCatalog

open Live

/-! ### Readings without a reader -/

/-- The reading neither changes what is on record nor depends on it. -/
structure Inert {α : Type} (x : Reading α) : Prop where
  stays : ∀ {ρ a ρ'}, Gives x ρ a ρ' → ρ' = ρ ∧ ∀ ρ'', Gives x ρ'' a ρ''

namespace Inert

variable {α β : Type}

theorem pure (a : α) : Inert (pure a : Reading α) where
  stays h := by
    obtain ⟨rfl, rfl⟩ := gives_pure.1 h
    exact ⟨rfl, fun _ => gives_pure.2 ⟨rfl, rfl⟩⟩

theorem refuse (f : ReadFault) : Inert (Reading.refuse f : Reading α) :=
  ⟨fun h => absurd h gives_throw⟩

theorem bind {x : Reading α} {f : α → Reading β} (hx : Inert x) (hf : ∀ a, Inert (f a)) :
    Inert (x >>= f) where
  stays h := by
    obtain ⟨a, ρ₁, ha, hb⟩ := gives_bind.1 h
    obtain ⟨rfl, ha'⟩ := hx.stays ha
    obtain ⟨rfl, hb'⟩ := (hf a).stays hb
    exact ⟨rfl, fun ρ'' => gives_bind.2 ⟨a, ρ'', ha' ρ'', hb' ρ''⟩⟩

theorem mapM {f : α → Reading β} (as : List α) (hf : ∀ a, Inert (f a)) : Inert (as.mapM f) := by
  induction as with
  | nil => exact pure []
  | cons a as ih =>
      rw [List.mapM_cons]
      exact (hf a).bind fun b => ih.bind fun bs => pure (b :: bs)

theorem targetIndex (size : Nat) (t : Target) : Inert (Reading.targetIndex size t) := by
  unfold Reading.targetIndex
  split
  · split
    · exact pure _
    · exact refuse _
  · exact refuse _

theorem boundaryIndex (size : Nat) (t : Target) : Inert (Reading.boundaryIndex size t) := by
  unfold Reading.boundaryIndex
  split
  · exact pure _
  · exact targetIndex size _

end Inert

/-- The reading of the row of a type that may be missing. -/
def Reading.optionalType (s : Store) (r : Row) : Reading (Option SigTree) :=
  if r.isNull then pure none else some <$> Reading.typeTree s r

theorem Steady.optionalType {m : Source} (s : Store) (r : Row) :
    Steady m (Reading.optionalType s r) :=
  .ite (.pure none) ((Steady.typeTree s r).map some)

theorem handler_eq (s : Store) (size : Nat) (h : Live.ExceptionHandler) :
    Reading.handler s size h = do
      let tryStart ← Reading.targetIndex size h.tryStart
      let tryEnd ← Reading.boundaryIndex size h.tryEnd
      let filterStart ← Reading.boundaryIndex size h.filterStart
      let handlerStart ← Reading.targetIndex size h.handlerStart
      let handlerEnd ← Reading.boundaryIndex size h.handlerEnd
      let catchType ← Reading.optionalType s h.catchType
      return ⟨tryStart, tryEnd, filterStart, handlerStart, handlerEnd, catchType,
        Int32.ofNat h.handlerType.toNat⟩ := by
  unfold Reading.handler Reading.optionalType
  split <;> rfl

section

variable {c : Catalog} {w w' : WriteState} {γ : Type} {size count : Nat}

/-! ### Branches -/

/-- The instruction with a number is read as the number. -/
theorem gives_target {n : Int32} {t : Target} (h : Gives (Writing.target size n) w t w') :
    w' = w ∧ t ≠ .null ∧ ∀ ρ, Gives (Reading.targetIndex size t) ρ n ρ := by
  unfold Writing.target at h
  split at h
  · next hn =>
      obtain ⟨rfl, rfl⟩ := gives_pure.1 h
      refine ⟨rfl, nofun, fun ρ => ?_⟩
      unfold Reading.targetIndex
      dsimp only
      rw [if_pos hn.2, Int32.ofNat_toNatClampNeg n hn.1]
      exact gives_pure.2 ⟨rfl, rfl⟩
  · exact absurd h gives_refuseWrite

theorem gives_boundary {n : Int32} {t : Target} (h : Gives (Writing.boundary size n) w t w') :
    w' = w ∧ ∀ ρ, Gives (Reading.boundaryIndex size t) ρ n ρ := by
  unfold Writing.boundary at h
  split at h
  · next hn =>
      obtain ⟨rfl, rfl⟩ := gives_pure.1 h
      rw [hn]
      exact ⟨rfl, fun ρ => gives_pure.2 ⟨rfl, rfl⟩⟩
  · obtain ⟨rfl, hne, ht⟩ := gives_target h
    refine ⟨rfl, fun ρ => ?_⟩
    cases t with
    | null => exact absurd rfl hne
    | _ => exact ht ρ

theorem gives_targets {ns : List Int32} {ts : List Target}
    (h : Gives (ns.mapM (Writing.target size)) w ts w') :
    w' = w ∧ ∀ ρ, Gives (ts.mapM (Reading.targetIndex size)) ρ ns ρ := by
  induction ns generalizing ts with
  | nil =>
      obtain ⟨rfl, rfl⟩ := gives_mapM_nil.1 h
      exact ⟨rfl, fun ρ => gives_mapM_nil.2 ⟨rfl, rfl⟩⟩
  | cons n ns ih =>
      obtain ⟨t, w₁, ts', ht, hts, rfl⟩ := gives_mapM_cons.1 h
      obtain ⟨rfl, -, hn⟩ := gives_target ht
      obtain ⟨rfl, hns⟩ := ih hts
      exact ⟨rfl, fun ρ => gives_mapM_cons.2 ⟨n, ρ, ns, hn ρ, hns ρ, rfl⟩⟩

/-! ### Operands without rows -/

/-- An operand is read by its row or signature, or else without a reader. -/
theorem operand_eq_or_inert (s : Store) (size : Nat) (op : OpCode) (o : Live.Operand) :
    (Reading.operand s size op o = Reading.tokenOperand s o >>= fun a => pure (some (.tree a))) ∨
      Inert (Reading.operand s size op o) ∧
        ∀ {ρ a ρ'}, ¬ Gives (Reading.operand s size op o) ρ (some (.tree a)) ρ' := by
  have notTree : ∀ {α : Type} {x : Reading α} {f : α → Operand}, (∀ a t, f a ≠ .tree t) →
      ∀ {ρ a ρ'}, ¬ Gives (x >>= fun a => pure (some (f a))) ρ (some (.tree a)) ρ' := by
    intro α x f hf ρ a ρ' h
    obtain ⟨b, _, -, h⟩ := gives_bind.1 h
    exact hf b a (Option.some.inj (gives_pure.1 h).1).symm
  unfold Reading.operand
  split
  all_goals first
    | exact .inl rfl
    | exact .inr ⟨.pure _, fun h => nomatch (gives_pure.1 h).1⟩
    | exact .inr ⟨.refuse _, fun h => gives_throw h⟩
    | exact .inr ⟨(Inert.targetIndex size _).bind fun _ => .pure _, notTree nofun⟩
    | exact .inr ⟨(Inert.mapM _ (Inert.targetIndex size)).bind fun _ => .pure _, notTree nofun⟩

/-- An opcode that takes a variable is read with the number that it has been written for. -/
theorem gives_variableOperand {op : OpCode} {n : Int32} {o : Live.Operand}
    (h : Gives (Writing.variableOperand count op n) w o w') :
    w' = w ∧ (o = .argument n.toUInt32 ∨ o = .variable (some n.toUInt32)) := by
  unfold Writing.variableOperand at h
  split at h
  · exact absurd h gives_refuseWrite
  · split at h
    · obtain ⟨rfl, rfl⟩ := gives_pure.1 h
      exact ⟨rfl, .inl rfl⟩
    · split at h
      · obtain ⟨rfl, rfl⟩ := gives_pure.1 h
        exact ⟨rfl, .inr rfl⟩
      · exact absurd h gives_refuseWrite

/-- An operand that is no tree comes back as it is. -/
theorem gives_operand {op : OpCode} {v : Option Operand} {o : Live.Operand}
    (hv : ∀ a, v ≠ some (.tree a)) (h : Gives (Writing.operand c size count op v) w o w') :
    w' = w ∧ ∀ s ρ, Gives (Reading.operand s size op o) ρ v ρ := by
  unfold Writing.operand at h
  unfold Reading.operand
  have plain : ∀ {x : Reading (Option Operand)} {a}, x = pure a → ∀ ρ, Gives x ρ a ρ := by
    rintro x a rfl ρ
    exact gives_pure.2 ⟨rfl, rfl⟩
  -- the kind of operand that the opcode takes says which operands are not refused
  cases hop : op.operandType with
  | inlineBrTarget | shortInlineBrTarget =>
      rw [hop] at h
      rcases v with _ | v
      · exact absurd h gives_refuseWrite
      · cases v with
        | int32 n =>
            obtain ⟨t, ht, rfl⟩ := gives_bind_pure.1 h
            obtain ⟨rfl, -, hn⟩ := gives_target ht
            exact ⟨rfl, fun s ρ => gives_bind.2 ⟨n, ρ, hn ρ, gives_pure.2 ⟨rfl, rfl⟩⟩⟩
        | _ => exact absurd h gives_refuseWrite
  | inlineSwitch =>
      rw [hop] at h
      rcases v with _ | v
      · exact absurd h gives_refuseWrite
      · cases v with
        | targets ns =>
            obtain ⟨ts, hts, rfl⟩ := gives_bind_pure.1 h
            obtain ⟨rfl, hns⟩ := gives_targets hts
            exact ⟨rfl, fun s ρ => gives_bind.2 ⟨ns, ρ, hns ρ, gives_pure.2 ⟨rfl, rfl⟩⟩⟩
        | _ => exact absurd h gives_refuseWrite
  | inlineField | inlineMethod | inlineSig | inlineTok | inlineType =>
      rw [hop] at h
      rcases v with _ | v
      · exact absurd h gives_refuseWrite
      · cases v with
        | tree a => exact absurd rfl (hv a)
        | _ => exact absurd h gives_refuseWrite
  | inlineVar | shortInlineVar =>
      rw [hop] at h
      rcases v with _ | v
      · exact absurd h gives_refuseWrite
      · cases v with
        | int32 n =>
            obtain ⟨rfl, rfl | rfl⟩ := gives_variableOperand h
            · exact ⟨rfl, fun s ρ => gives_pure.2 ⟨by rw [Int32.toInt32_toUInt32], rfl⟩⟩
            · exact ⟨rfl, fun s ρ => gives_pure.2 ⟨by rw [Int32.toInt32_toUInt32], rfl⟩⟩
        | _ => exact absurd h gives_refuseWrite
  | inlineI | shortInlineI | inlineI8 | shortInlineR | inlineR | inlineString =>
      rw [hop] at h
      rcases v with _ | v
      · exact absurd h gives_refuseWrite
      · cases v
        all_goals first
          | exact absurd h gives_refuseWrite
          | obtain ⟨rfl, rfl⟩ := gives_pure.1 h
            exact ⟨rfl, fun s => plain rfl⟩
  | inlineNone =>
      rw [hop] at h
      rcases v with _ | v
      · obtain ⟨rfl, rfl⟩ := gives_pure.1 h
        exact ⟨rfl, fun s => plain rfl⟩
      · exact absurd h gives_refuseWrite
  | inlinePhi =>
      rw [hop] at h
      exact absurd h gives_refuseWrite

/-- An operand that is a tree is read by its row or signature. -/
theorem gives_treeOperand {op : OpCode} {a : SigTree} {o : Live.Operand}
    (h : Gives (Writing.operand c size count op (some (.tree a))) w o w') :
    Gives (Writing.tokenOperand c a) w o w' ∧ ∀ s, Reading.operand s size op o =
      Reading.tokenOperand s o >>= fun a => pure (some (.tree a)) := by
  unfold Writing.operand at h
  unfold Reading.operand
  cases hop : op.operandType with
  | inlineField | inlineMethod | inlineSig | inlineTok | inlineType =>
      rw [hop] at h
      exact ⟨h, fun s => rfl⟩
  | _ =>
      rw [hop] at h
      exact absurd h gives_refuseWrite

/-! ### Rows of types as operands -/

theorem rowOperand_type (s : Store) {r : Row} (h : r.isType = true) :
    Reading.rowOperand s r = Reading.typeTree s r >>= fun t => pure (.inline .type t) := by
  cases r with
  | typeDef _ | typeRef _ _ _ _ | typeSpec _ _ => rfl
  | _ => exact nomatch h

/-! ### Opcodes -/

theorem name_of_ofName? {n : Bytes} {op : OpCode} (h : OpCode.ofName? n = some op) :
    utf8 op.name = n := by
  have hfound := List.find?_some h
  exact beq_iff_eq.1 hfound

theorem gives_opCode {i : Instruction} {p : OpCode × Option Operand} :
    Gives (Writing.opCode i) w p w' ↔ OpCode.ofName? i.opcode = some p.1 ∧ p.2 = i.operand ∧ w' = w := by
  rw [Writing.opCode_eq]
  cases hop : OpCode.ofName? i.opcode with
  | none => exact iff_of_false gives_refuseWrite (by rintro ⟨h, -⟩; exact nomatch h)
  | some op =>
      dsimp only
      rw [gives_pure, Option.some.injEq, Prod.ext_iff]
      constructor
      · rintro ⟨⟨hfst, hsnd⟩, hw⟩
        exact ⟨hfst.symm, hsnd, hw⟩
      · rintro ⟨hfst, hsnd, hw⟩
        exact ⟨⟨hfst.symm, hsnd⟩, hw⟩

/-- Finding all opcodes first is as good as finding each of them where it is needed. -/
theorem gives_mapM_opCode {is : List Instruction} {ops : List (OpCode × Option Operand)}
    (h : Gives (is.mapM Writing.opCode) w ops w') :
    w' = w ∧ ops.length = is.length ∧
      ∀ {g : OpCode × Option Operand → Writing γ} {cs : List γ} {w w'},
        Gives (ops.mapM g) w cs w' → Gives (is.mapM fun i => Writing.opCode i >>= g) w cs w' := by
  induction is generalizing ops with
  | nil =>
      obtain ⟨rfl, rfl⟩ := gives_mapM_nil.1 h
      exact ⟨rfl, rfl, fun h => h⟩
  | cons i is ih =>
      obtain ⟨op, w₁, ops', hop, hops, rfl⟩ := gives_mapM_cons.1 h
      obtain ⟨hname, hoperand, rfl⟩ := gives_opCode.1 hop
      obtain ⟨rfl, hlength, hrest⟩ := ih hops
      refine ⟨rfl, congrArg (· + 1) hlength, fun hg => ?_⟩
      obtain ⟨c, w₂, cs', hc, hcs, rfl⟩ := gives_mapM_cons.1 hg
      exact gives_mapM_cons.2
        ⟨c, w₂, cs', gives_bind.2 ⟨op, _, gives_opCode.2 ⟨hname, hoperand, rfl⟩, hc⟩, hrest hcs, rfl⟩

/-! ### Protected regions -/

/-- The octet for how a handler is entered comes back as it is. -/
theorem gives_handlerType {n : Int32} {b : UInt8} (h : Gives (Writing.handlerType n) w b w') :
    w' = w ∧ Int32.ofNat b.toNat = n := by
  unfold Writing.handlerType at h
  split at h
  · next hn =>
      obtain ⟨rfl, rfl⟩ := gives_pure.1 h
      rcases hn with rfl | rfl | rfl | rfl <;> exact ⟨rfl, by decide⟩
  · exact absurd h gives_refuseWrite

/-! ### Stacks -/

/-- The size of a stack comes back, as it fits into 16 bits. -/
theorem ofNat_low16 {n : Int32} (h : ¬ (n < 0 ∨ 0xFFFF < n)) :
    Int32.ofNat (Writing.low16 n).toNat = n := by
  obtain ⟨hlow, hhigh⟩ := not_or.1 h
  have h₀ : 0 ≤ n := Int32.not_lt.1 hlow
  have h₁ : n.toInt ≤ 0xFFFF := Int32.le_iff_toInt_le.1 (Int32.not_lt.1 hhigh)
  have hnat : (Writing.low16 n).toNat = n.toNatClampNeg := by
    rw [Writing.low16, UInt32.toNat_toUInt16, Int32.toNat_toUInt32_of_le h₀, Int32.toNatClampNeg]
    exact Nat.mod_eq_of_lt (by omega)
  rw [hnat, Int32.ofNat_toNatClampNeg n h₀]

end

end CilCatalog
