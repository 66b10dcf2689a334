import CilCatalog.Proofs.Copying.Parts
import CilCatalog.Proofs.Reading.Depicted
import CilCatalog.Proofs.Writing.Code

/-!
# Writing method bodies

An instruction that is written is read as the original (`instruction_writes`): operands that are no rows come back as they are, and rows and signatures are read as those that they have been written for.
-/

namespace CilCatalog

open Live

namespace Copy

variable {C : Copy} {w w' w'' : WriteState} {σ σ' : Store} {α β γ δ : Type} {size count : Nat}

/-- What has been read without a reader is followed by what gives the same. -/
theorem Follows.of_inert {x y : Reading α} {a : α} (hx : Inert x) (ha : Read C.source C.reader x a)
    (hy : ∀ ρ, Gives y ρ a ρ) : C.Follows x y := by
  intro ρ b ρ' hi ho h
  obtain ⟨rfl, -⟩ := hx.stays h
  obtain ⟨ρ₀, ρ₁, -, ha, -⟩ := ha
  obtain rfl := (h.unique ((hx.stays ha).2 ρ')).1
  exact ⟨hi, ho, hy _⟩

/-! ### Rows and signatures as operands -/

/-- A row that stands for a field is read as one. -/
theorem FieldStands.rowOperand {id : MemberIdentity} {r : Row} (h : C.FieldStands σ id r) (s : Store) :
    Reading.rowOperand s r =
      Reading.fieldToken s r >>= fun k => pure (.inline .field (.token k)) := by
  cases h with
  | defined f => rfl
  | referred n sig parent hs =>
      cases sig with
      | field _ => rfl
      | _ => exact nomatch hs

/-- A row that stands for a method is read as one. -/
theorem MethodStands.rowOperand {id : MemberIdentity} {r : Row} (h : C.MethodStands σ id r)
    (s : Store) : Reading.rowOperand s r =
      Reading.methodToken s r >>= fun k => pure (.inline .method (.token k)) := by
  cases h with
  | defined f => rfl
  | referred n sig parent hs =>
      cases sig with
      | method _ _ _ _ _ _ => rfl
      | _ => exact nomatch hs

/-- A member reference is read as a field or a method, if it has a signature. -/
theorem rowOperand_memberRef (s : Store) (n : Nat) (name : Bytes) (sig : CallSig) (parent : Row) :
    let r := Row.memberRef n name sig parent
    (Reading.rowOperand s r = Reading.fieldToken s r >>= fun k => pure (.inline .field (.token k))) ∨
      (Reading.rowOperand s r =
        Reading.methodToken s r >>= fun k => pure (.inline .method (.token k))) ∨
      ∃ f, Reading.rowOperand s r = throw f := by
  cases sig with
  | null => exact .inr (.inr ⟨_, rfl⟩)
  | field _ => exact .inl rfl
  | _ => exact .inr (.inl rfl)

theorem fieldOperand_writes {r₀ : Row} {o : Live.Operand} {k : Token} (hr : C.source.Has r₀.rows)
    (hk : Read C.source C.reader (Reading.fieldToken C.source.store r₀) k) (hw : C.Faithful .null w)
    (h : Gives (Writing.tokenOperand C.catalog (.inline .field (.token k))) w o w') :
    C.Writes w w' (Reading.fieldToken C.source.store r₀ >>= fun k => pure (.inline .field (.token k)))
      (Reading.tokenOperand · o) := by
  obtain ⟨r, hrow, rfl⟩ := gives_bind_pure.1 h
  obtain ⟨token, id, hs⟩ := fieldOfToken_writes hr hk hw hrow
  have heq : (Reading.tokenOperand · (.row r)) = fun s =>
      Reading.fieldToken s r >>= fun k => pure (.inline .field (.token k)) := funext hs.rowOperand
  rw [heq]
  exact token.map _

theorem methodOperand_writes {r₀ : Row} {o : Live.Operand} {k : Token} (hr : C.source.Has r₀.rows)
    (hk : Read C.source C.reader (Reading.methodToken C.source.store r₀) k) (hw : C.Faithful .null w)
    (h : Gives (Writing.tokenOperand C.catalog (.inline .method (.token k))) w o w') :
    C.Writes w w' (Reading.methodToken C.source.store r₀ >>= fun k => pure (.inline .method (.token k)))
      (Reading.tokenOperand · o) := by
  obtain ⟨r, hrow, rfl⟩ := gives_bind_pure.1 h
  obtain ⟨token, id, hs⟩ := methodOfToken_writes hr hk hw hrow
  have heq : (Reading.tokenOperand · (.row r)) = fun s =>
      Reading.methodToken s r >>= fun k => pure (.inline .method (.token k)) := funext hs.rowOperand
  rw [heq]
  exact token.map _

theorem typeOperand_writes {r₀ : Row} {o : Live.Operand} {t : SigTree} (hr : C.source.Has r₀.rows)
    (ht : Read C.source C.reader (Reading.typeTree C.source.store r₀) t) (hw : C.Faithful .null w)
    (h : Gives (Writing.tokenOperand C.catalog (.inline .type t)) w o w') :
    C.Writes w w' (Reading.typeTree C.source.store r₀ >>= fun t => pure (.inline .type t))
      (Reading.tokenOperand · o) := by
  obtain ⟨r, hrow, rfl⟩ := gives_bind_pure.1 h
  obtain ⟨tree, hparent⟩ := rowOfTree_puts r₀ (plain_of_has hr) ht hw hrow
  have heq : (Reading.tokenOperand · (.row r)) = fun s =>
      Reading.typeTree s r >>= fun t => pure (.inline .type t) :=
    funext fun s => rowOperand_type s hparent.isType
  rw [heq]
  exact tree.writes.map _

/-- An instantiation of a method. -/
theorem methodSpec_writes {n : Nat} {method : Row} {sig : CallSig} {o : Live.Operand} {a : SigTree}
    (hr : C.source.Has (Row.methodSpec n method sig).rows)
    (ha : Read C.source C.reader (Reading.rowOperand C.source.store (.methodSpec n method sig)) a)
    (hw : C.Faithful .null w) (h : Gives (Writing.tokenOperand C.catalog a) w o w') :
    C.Writes w w' (Reading.rowOperand C.source.store (.methodSpec n method sig))
      (Reading.tokenOperand · o) := by
  obtain ⟨-, hr⟩ := Source.has_cons.1 hr
  obtain ⟨hmethod, hsig⟩ := Source.has_append.1 hr
  obtain ⟨k, hk, ha⟩ := ha.of_bind (.methodToken _ method) fun _ =>
    (Steady.callSigTree _ sig).bind fun _ => .pure _
  obtain ⟨c, hc, rfl⟩ := ha.of_bind_pure (.callSigTree _ sig)
  rw [Writing.tokenOperand_eq] at h
  obtain ⟨r, w₁, hrow, h⟩ := gives_bind.1 h
  obtain ⟨sig', w₂, hs, h⟩ := gives_bind.1 h
  obtain ⟨token, -⟩ := methodOfToken_writes hmethod hk hw hrow
  obtain ⟨inst, -⟩ := callSigOf_puts sig (plain_of_has hsig) hc token.faithful hs
  split at h
  · obtain ⟨r', hmake, rfl⟩ := gives_bind_pure.1 h
    obtain ⟨rfl, rfl⟩ := gives_making.1 hmake
    obtain ⟨hw', hst⟩ := inst.faithful.furnish
      (furnishes_addRow inst.faithful.ground (.methodSpec · r sig'))
    obtain ⟨-, hecho⟩ := inst.first hst
    exact token.bind k fun k => Writes.map ⟨hw', inst.step.toRefers.trans hst.toRefers, hecho⟩ _
  · exact absurd h gives_refuseWrite

theorem rowOperand_writes {r₀ : Row} {o : Live.Operand} {a : SigTree} (hr : C.source.Has r₀.rows)
    (ha : Read C.source C.reader (Reading.rowOperand C.source.store r₀) a) (hw : C.Faithful .null w)
    (h : Gives (Writing.tokenOperand C.catalog a) w o w') :
    C.Writes w w' (Reading.rowOperand C.source.store r₀) (Reading.tokenOperand · o) := by
  cases r₀ with
  | fieldDef f =>
      obtain ⟨k, hk, rfl⟩ := ha.of_bind_pure (.fieldToken _ _)
      exact fieldOperand_writes hr hk hw h
  | methodDef f =>
      obtain ⟨k, hk, rfl⟩ := ha.of_bind_pure (.methodToken _ _)
      exact methodOperand_writes hr hk hw h
  | memberRef n name sig parent =>
      rcases rowOperand_memberRef C.source.store n name sig parent with heq | heq | ⟨f, heq⟩
      · rw [heq] at ha ⊢
        obtain ⟨k, hk, rfl⟩ := ha.of_bind_pure (.fieldToken _ _)
        exact fieldOperand_writes hr hk hw h
      · rw [heq] at ha ⊢
        obtain ⟨k, hk, rfl⟩ := ha.of_bind_pure (.methodToken _ _)
        exact methodOperand_writes hr hk hw h
      · rw [heq] at ha
        exact absurd ha Read.not_throw
  | methodSpec n method sig => exact methodSpec_writes hr ha hw h
  | typeDef t =>
      obtain ⟨t, ht, rfl⟩ := ha.of_bind_pure (.typeTree _ _)
      exact typeOperand_writes hr ht hw h
  | typeRef n ns name scope =>
      obtain ⟨t, ht, rfl⟩ := ha.of_bind_pure (.typeTree _ _)
      exact typeOperand_writes hr ht hw h
  | typeSpec n t =>
      obtain ⟨t, ht, rfl⟩ := ha.of_bind_pure (.typeTree _ _)
      exact typeOperand_writes hr ht hw h
  | null | assemblyRef _ _ | moduleRef _ _ => exact absurd ha Read.not_refuse

/-- Every tree for a signature is marked as one with a calling convention. -/
theorem callSig_of_read {m : Source} {ρ : Reader} {c : CallSig} {a : SigTree}
    (h : Read m ρ (Reading.callSigTree m.store c) a) : ∃ code as, a = .callSig code as := by
  cases DepictsCall.of_read h <;> exact ⟨_, _, rfl⟩

/-- A row or signature that is written for a tree is read as what the tree has been read from. -/
theorem tokenOperand_writes {o₀ o : Live.Operand} {a : SigTree} (hr : C.source.Has o₀.rows)
    (ha : Read C.source C.reader (Reading.tokenOperand C.source.store o₀) a)
    (hw : C.Faithful .null w) (h : Gives (Writing.tokenOperand C.catalog a) w o w') :
    C.Writes w w' (Reading.tokenOperand C.source.store o₀) (Reading.tokenOperand · o) := by
  cases o₀ with
  | row r => exact rowOperand_writes hr ha hw h
  | signature c =>
      unfold Reading.tokenOperand at ha
      dsimp only at ha
      split at ha
      · exact absurd ha Read.not_refuse
      · next hnull =>
          split at ha
          · next hkind =>
              obtain ⟨code, as, rfl⟩ := callSig_of_read ha
              obtain ⟨sig, w₁, hs, h⟩ := gives_bind.1 h
              obtain ⟨puts, -⟩ := callSigOf_puts c (plain_of_has hr) ha hw hs
              obtain ⟨hnull', h⟩ := gives_bind_askable.1 h
              split at h
              · next hkind' =>
                  obtain ⟨rfl, rfl⟩ := gives_pure.1 h
                  simp only [Reading.tokenOperand, hnull, hnull', hkind, hkind', if_true, if_false,
                    Bool.false_eq_true]
                  exact puts.writes
              · exact absurd h gives_refuseWrite
          · exact absurd ha Read.not_refuse
  | _ => exact absurd ha Read.not_refuse

theorem operand_writes {op op' : OpCode} {o₀ o : Live.Operand} {v : Option Operand}
    (hr : C.source.Has o₀.rows)
    (hv : Read C.source C.reader (Reading.operand C.source.store size op o₀) v)
    (hw : C.Faithful .null w) (h : Gives (Writing.operand C.catalog size count op' v) w o w') :
    C.Writes w w' (Reading.operand C.source.store size op o₀) (Reading.operand · size op' o) := by
  rcases operand_eq_or_inert C.source.store size op o₀ with heq | ⟨hinert, htree⟩
  · rw [heq] at hv ⊢
    obtain ⟨a, ha, rfl⟩ := hv.of_bind_pure (.tokenOperand _ o₀)
    obtain ⟨htoken, heq'⟩ := gives_treeOperand h
    simp only [heq']
    exact (tokenOperand_writes hr ha hw htoken).map _
  · have hplain : ∀ a, v ≠ some (.tree a) := by
      rintro a rfl
      obtain ⟨_, _, -, hg, -⟩ := hv
      exact htree hg
    obtain ⟨rfl, hgives⟩ := gives_operand hplain h
    exact ⟨hw, .refl _, fun σ _ => .of_inert hinert hv (hgives σ)⟩

/-! ### Instructions -/

/-- An instruction that is written is read as the original. -/
theorem instruction_writes {i₀ : Live.Instruction} {q : Instruction} {i : Live.Instruction}
    (hr : C.source.Has i₀.operand.rows)
    (hq : Read C.source C.reader (Reading.instruction C.source.store size i₀) q)
    (hw : C.Faithful .null w)
    (h : Gives (Writing.opCode q >>= fun p => do
      return (⟨p.1, ← Writing.operand C.catalog size count p.1 p.2⟩ : Live.Instruction)) w i w') :
    C.Writes w w' (Reading.instruction C.source.store size i₀) (Reading.instruction · size i) := by
  obtain ⟨v, hv, rfl⟩ := hq.of_bind_pure (.operand _ size _ _)
  obtain ⟨⟨op, v'⟩, w₁, hop, hrest⟩ := gives_bind.1 h
  obtain ⟨hname, rfl, rfl⟩ := gives_opCode.1 hop
  obtain ⟨o, ho, rfl⟩ := gives_bind_pure.1 hrest
  have hname : utf8 op.name = utf8 i₀.opcode.name := name_of_ofName? hname
  exact (operand_writes hr hv hw ho).map_congr fun v => congrArg (Instruction.mk · v) hname.symm

/-! ### Protected regions -/

/-- What is written for a type that may be missing. -/
theorem optionalType_writes {r₀ r : Row} {t : Option SigTree} (hr : C.source.Has r₀.rows)
    (ht : Read C.source C.reader (Reading.optionalType C.source.store r₀) t)
    (hw : C.Faithful .null w)
    (h : Gives (match t with
      | none   => pure .null
      | some t => Writing.rowOfTree C.catalog t) w r w') :
    C.Writes w w' (Reading.optionalType C.source.store r₀) (Reading.optionalType · r) := by
  unfold Reading.optionalType at ht ⊢
  split at ht
  · next hnull =>
      obtain rfl := ht.of_pure
      obtain ⟨rfl, rfl⟩ := gives_pure.1 h
      rw [if_pos hnull]
      exact .refl hw none
  · next hnull =>
      obtain ⟨a, ha, rfl⟩ := ht.of_map (.typeTree _ r₀)
      obtain ⟨puts, hparent⟩ := rowOfTree_puts r₀ (plain_of_has hr) ha hw h
      have hnull' : ¬ r.isNull = true := by
        cases r with
        | null => exact nomatch hparent.isType
        | _ => exact Bool.false_ne_true
      rw [if_neg hnull]
      simp only [if_neg hnull']
      exact ⟨puts.faithful, puts.step.toRefers, puts.echo.map some⟩

theorem target_writes {t₀ t : Target} {n : Int32}
    (hn : Read C.source C.reader (Reading.targetIndex size t₀) n) (hw : C.Faithful .null w)
    (h : Gives (Writing.target size n) w t w') :
    C.Writes w w' (Reading.targetIndex size t₀) fun _ => Reading.targetIndex size t := by
  obtain ⟨rfl, -, ht⟩ := gives_target h
  exact ⟨hw, .refl _, fun _ _ => .of_inert (.targetIndex size t₀) hn ht⟩

theorem boundary_writes {t₀ t : Target} {n : Int32}
    (hn : Read C.source C.reader (Reading.boundaryIndex size t₀) n) (hw : C.Faithful .null w)
    (h : Gives (Writing.boundary size n) w t w') :
    C.Writes w w' (Reading.boundaryIndex size t₀) fun _ => Reading.boundaryIndex size t := by
  obtain ⟨rfl, ht⟩ := gives_boundary h
  exact ⟨hw, .refl _, fun _ _ => .of_inert (.boundaryIndex size t₀) hn ht⟩

theorem handler_writes {e₀ e : Live.ExceptionHandler} {q : ExceptionHandler}
    (hr : C.source.Has e₀.catchType.rows)
    (hq : Read C.source C.reader (Reading.handler C.source.store size e₀) q)
    (hw : C.Faithful .null w) (h : Gives (Writing.handler C.catalog size q) w e w') :
    C.Writes w w' (Reading.handler C.source.store size e₀) (Reading.handler · size e) := by
  simp only [handler_eq] at hq ⊢
  obtain ⟨tryStart, h₁, hq⟩ := hq.of_bind (.targetIndex size _) fun _ =>
    (Steady.boundaryIndex size _).bind fun _ => (Steady.boundaryIndex size _).bind fun _ =>
      (Steady.targetIndex size _).bind fun _ => (Steady.boundaryIndex size _).bind fun _ =>
        (Steady.optionalType _ _).bind fun _ => .pure _
  obtain ⟨tryEnd, h₂, hq⟩ := hq.of_bind (.boundaryIndex size _) fun _ =>
    (Steady.boundaryIndex size _).bind fun _ => (Steady.targetIndex size _).bind fun _ =>
      (Steady.boundaryIndex size _).bind fun _ => (Steady.optionalType _ _).bind fun _ => .pure _
  obtain ⟨filterStart, h₃, hq⟩ := hq.of_bind (.boundaryIndex size _) fun _ =>
    (Steady.targetIndex size _).bind fun _ => (Steady.boundaryIndex size _).bind fun _ =>
      (Steady.optionalType _ _).bind fun _ => .pure _
  obtain ⟨handlerStart, h₄, hq⟩ := hq.of_bind (.targetIndex size _) fun _ =>
    (Steady.boundaryIndex size _).bind fun _ => (Steady.optionalType _ _).bind fun _ => .pure _
  obtain ⟨handlerEnd, h₅, hq⟩ := hq.of_bind (.boundaryIndex size _) fun _ =>
    (Steady.optionalType _ _).bind fun _ => .pure _
  obtain ⟨catchType, h₆, rfl⟩ := hq.of_bind_pure (.optionalType _ _)
  obtain ⟨tryStart', w₁, h₁', h⟩ := gives_bind.1 h
  obtain ⟨tryEnd', w₂, h₂', h⟩ := gives_bind.1 h
  obtain ⟨filterStart', w₃, h₃', h⟩ := gives_bind.1 h
  obtain ⟨handlerStart', w₄, h₄', h⟩ := gives_bind.1 h
  obtain ⟨handlerEnd', w₅, h₅', h⟩ := gives_bind.1 h
  obtain ⟨type, w₆, htype, h⟩ := gives_bind.1 h
  obtain ⟨hw₆, hentry⟩ := gives_handlerType htype
  have first := target_writes h₁ hw h₁'
  have second := boundary_writes h₂ first.faithful h₂'
  have third := boundary_writes h₃ second.faithful h₃'
  have fourth := target_writes h₄ third.faithful h₄'
  have fifth := boundary_writes h₅ fourth.faithful h₅'
  have hlast : ∃ r, Gives (match catchType with
      | none   => pure .null
      | some t => Writing.rowOfTree C.catalog t) w₆ r w' ∧
      e = ⟨tryStart', tryEnd', filterStart', handlerStart', handlerEnd', r, type⟩ := by
    cases catchType with
    | none => exact gives_bind_pure.1 h
    | some t => exact gives_bind_pure.1 h
  obtain ⟨r, hrow, rfl⟩ := hlast
  subst hw₆
  have sixth := optionalType_writes hr h₆ fifth.faithful hrow
  exact first.bind tryStart fun _ => second.bind tryEnd fun _ => third.bind filterStart fun _ =>
    fourth.bind handlerStart fun _ => fifth.bind handlerEnd fun _ =>
      sixth.map_congr fun _ => congrArg (ExceptionHandler.mk _ _ _ _ _ _) hentry.symm

/-- A body that is written is read as the original. -/
theorem body_writes {b₀ b : Live.MethodBody} {q : MethodBody} (hr : C.source.Has b₀.rows)
    (hq : Read C.source C.reader (Reading.body C.source.store b₀) q)
    (hw : C.Faithful .null w) (h : Gives (Writing.body C.catalog q) w b w') :
    C.Writes w w' (Reading.body C.source.store b₀) (Reading.body · b) := by
  obtain ⟨hrest, hlocals⟩ := Source.has_append.1 hr
  obtain ⟨hinstructions, hhandlers⟩ := Source.has_append.1 hrest
  obtain ⟨is, his, hq⟩ := hq.of_bind (.mapM _ (Steady.instruction _ _)) fun _ =>
    (Steady.mapM _ (Steady.handler _ _)).bind fun _ => (Steady.typeSigTrees _ _).bind fun _ => .pure _
  obtain ⟨es, hes, hq⟩ := hq.of_bind (.mapM _ (Steady.handler _ _)) fun _ =>
    (Steady.typeSigTrees _ _).bind fun _ => .pure _
  obtain ⟨ts, hts, rfl⟩ := hq.of_bind_pure (.typeSigTrees _ _)
  have hread := his.of_mapM (Steady.instruction _ _)
  unfold Writing.body at h
  obtain ⟨-, h⟩ := gives_guard.1 h
  obtain ⟨ts', w₁, hts', h⟩ := gives_bind.1 h
  obtain ⟨ops, w₂, hops, h⟩ := gives_bind.1 h
  obtain ⟨is', w₃, his', h⟩ := gives_bind.1 h
  obtain ⟨es', hes', rfl⟩ := gives_bind_pure.1 h
  obtain ⟨rfl, hlength, hboth⟩ := gives_mapM_opCode hops
  obtain ⟨locals, -⟩ := typeSigsOf_puts b₀.locals (plain_of_has hlocals) hts hw hts'
  have hsize : ops.length = b₀.instructions.length := hlength.trans hread.length_eq.symm
  rw [hsize] at his' hes'
  obtain ⟨hw₃, hst₃, instructions⟩ := Writes.mapM (h := fun i σ =>
      Reading.instruction σ b₀.instructions.length i) hread
    (fun hmem hq hw h => instruction_writes (Source.has_flatMap.1 hinstructions _ hmem) hq hw h)
    locals.faithful (hboth his')
  obtain ⟨hw', hst', handlers⟩ := Writes.mapM (h := fun e σ =>
      Reading.handler σ b₀.instructions.length e) (hes.of_mapM (Steady.handler _ _))
    (fun hmem hq hw h => handler_writes (Source.has_flatMap.1 hhandlers _ hmem) hq hw h) hw₃ hes'
  refine ⟨hw', locals.step.toRefers.trans (hst₃.trans hst'), ?_⟩
  have hsize' : is'.length = b₀.instructions.length := instructions.length_eq.symm
  unfold Reading.body
  dsimp only
  rw [hsize', low16_ofNat]
  exact (Echo.mapM (instructions.imp fun _ _ h => h.extends hst'.store)).bind fun is =>
    (Echo.mapM handlers).bind fun es =>
      (locals.echo.extends (hst₃.trans hst').store).bind fun ts => .pure _

end Copy

end CilCatalog
