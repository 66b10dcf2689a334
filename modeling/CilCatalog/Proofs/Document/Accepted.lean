import CilCatalog.Proofs.Document.Durable
import CilCatalog.Proofs.Document.Members
import CilCatalog.Proofs.SigTree.Format

/-!
# What documents are read as

A document may be written in any way its reader takes: with members in another order or twice, with slots out of range, with NaNs of any payload.  Whatever is read from it is durable all the same (`document_yields`): indices are checked for their sign and trees for a text, a slot is converted to the type that is declared, and narrowing makes a NaN quiet.

`Yields read P` says that a reader gives nothing but values with the property `P`; there is one such law for each combinator of readers.
-/

namespace CilCatalog

variable {α : Type} {P : α → Prop}

/-- Whatever is read has the property. -/
def Yields (read : Json → Decode.Read α) (P : α → Prop) : Prop := ∀ v a, read v = .ok a → P a

/-! ### Members and lists -/

theorem of_mapM_read {read : Json → Decode.Read α} (h : Yields read P) {vs : List Json} {as : List α}
    (hs : vs.mapM read = .ok as) : ∀ a ∈ as, P a := by
  induction vs generalizing as with
  | nil =>
      cases hs
      exact fun _ ha => absurd ha List.not_mem_nil
  | cons v vs ih =>
      rw [List.mapM_cons] at hs
      obtain ⟨a, ha, hs⟩ := bind_eq_ok.1 hs
      obtain ⟨bs, hbs, hs⟩ := bind_eq_ok.1 hs
      cases hs
      exact List.forall_mem_cons.2 ⟨h v a ha, ih hbs⟩

namespace Yields

variable {read : Json → Decode.Read α} {ms : List (Bytes × Json)} {k : Bytes}

theorem optional (h : Yields read P) {o : Option α} (ho : Decode.optional ms k read = .ok o) :
    ∀ a ∈ o, P a := by
  unfold Decode.optional at ho
  split at ho
  · obtain ⟨a, ha, ho⟩ := bind_eq_ok.1 ho
    cases ho
    rintro _ ⟨⟩
    exact h _ a ha
  · cases ho
    rintro _ ⟨⟩

theorem list {what : Bytes} (h : Yields read P) :
    Yields (Decode.list what read) fun as => ∀ a ∈ as, P a := by
  intro v as hs
  obtain ⟨vs, -, hs⟩ := bind_eq_ok.1 hs
  exact of_mapM_read h hs

theorem optionalList (h : Yields read P) {o : Option (List α)}
    (ho : Decode.optionalList ms k read = .ok o) : ∀ as ∈ o, ∀ a ∈ as, P a :=
  h.list.optional ho

theorem requiredList (h : Yields read P) {as : List α} (hs : Decode.requiredList ms k read = .ok as) :
    ∀ a ∈ as, P a := by
  obtain ⟨v, -, hs⟩ := bind_eq_ok.1 hs
  exact h.list v as hs

end Yields

/-! ### Tokens and trees -/

theorem bounds_of_integer {what : Bytes} {lo hi : Int} {v : Json} {i : Int64}
    (h : Decode.integer what lo hi v = .ok i) : lo ≤ i.toInt ∧ i.toInt ≤ hi := by
  obtain ⟨j, -, h⟩ := bind_eq_ok.1 h
  split at h
  · cases h
  · cases h
    omega

theorem tokenName_durable {n : Bytes} {t : Token} (h : Decode.tokenName n = .ok t) : t.Durable := by
  unfold Decode.tokenName at h
  split at h
  · next t' ht =>
      cases h
      unfold Token.ofName at ht
      cases hn : TokenName.ofBytes n with
      | error f => rw [hn] at ht; cases ht
      | ok m => rw [hn] at ht; cases ht; trivial
  · cases h

theorem tokenIndex_durable {v : Json} {t : Token} (h : Decode.tokenIndex false v = .ok t) :
    t.Durable := by
  obtain ⟨i, hi, h⟩ := bind_eq_ok.1 h
  cases h
  obtain ⟨lo, hi⟩ := bounds_of_integer hi
  have lo : 0 ≤ i.toInt := lo
  change 0 ≤ i.toInt32.toInt
  rw [Int64.toInt_toInt32, Int.bmod_eq_of_le (by omega) (by omega)]
  exact lo

theorem token_yields : Yields Decode.token Token.Durable := by
  intro v t h
  unfold Decode.token Decode.anyToken at h
  split at h
  · exact tokenIndex_durable h
  · exact tokenName_durable h
  · split at h
    · exact tokenIndex_durable h
    · obtain ⟨n, -, h⟩ := bind_eq_ok.1 h
      exact tokenName_durable h
  · cases h

open SigTree (Formattable)

theorem formattable_of_checked {t t' : SigTree} (h : Decode.checked t = .ok t') : t'.Formattable := by
  unfold Decode.checked at h
  split at h
  · next s hs =>
      cases h
      exact ⟨s, hs⟩
  · cases h

theorem formattable_of_ofToken {φ : Type} {t : Token} {u : SigTree}
    (h : (SigTree.ofToken t : Except (Failure φ) SigTree) = .ok u) : u.Formattable := by
  cases t with
  | named n =>
      cases h
      exact ⟨_, rfl⟩
  | index i =>
      rw [SigTree.ofToken] at h
      split at h
      · cases h
      · next hi =>
          cases h
          exact ⟨_, by rw [SigTree.format, if_neg hi]⟩

theorem formattable_methodSpec {m i : SigTree} (hm : m.Formattable) (hi : i.Formattable) :
    (SigTree.methodSpec m i).Formattable := by
  obtain ⟨s, hs⟩ := hm
  obtain ⟨t, ht⟩ := hi
  exact ⟨_, by rw [SigTree.format, hs, ht]; rfl⟩

theorem formattable_inline {k : OperandKind} {o : SigTree} (ho : o.Formattable) :
    (SigTree.inline k o).Formattable := by
  obtain ⟨s, hs⟩ := ho
  exact ⟨_, by rw [SigTree.format, hs]; rfl⟩

theorem node_inline_formattable {k : OperandKind} {as : List SigTree} {t : SigTree}
    (has : ∀ a ∈ as, a.Formattable) (h : Decode.node.inline k as = .ok t) : t.Formattable := by
  unfold Decode.node.inline at h
  split at h
  · cases h
    exact formattable_inline (has _ List.mem_cons_self)
  · cases h

/-- A node is formattable if its arguments are. -/
theorem node_formattable {ms : Decode.Members} {as : List SigTree} {k : NodeKind} {t : SigTree}
    (has : ∀ a ∈ as, a.Formattable) (h : Decode.node ms as k = .ok t) : t.Formattable := by
  cases k with
  | token =>
      rw [Decode.node] at h
      obtain ⟨v, -, h⟩ := bind_eq_ok.1 h
      obtain ⟨u, -, h⟩ := bind_eq_ok.1 h
      exact formattable_of_ofToken h
  | int32 =>
      rw [Decode.node] at h
      obtain ⟨v, -, h⟩ := bind_eq_ok.1 h
      obtain ⟨u, -, h⟩ := bind_eq_ok.1 h
      cases u with
      | index i =>
          cases h
          exact ⟨_, rfl⟩
      | named n => cases h
  | typeSig =>
      obtain ⟨c, -, h⟩ := bind_eq_ok.1 h
      exact formattable_of_checked h
  | callSig =>
      obtain ⟨c, -, h⟩ := bind_eq_ok.1 h
      exact formattable_of_checked h
  | methodSpec =>
      rw [Decode.node.eq_def] at h
      dsimp only at h
      split at h
      · cases h
        exact formattable_methodSpec (has _ List.mem_cons_self)
          (has _ (List.mem_cons_of_mem _ List.mem_cons_self))
      · cases h
  | inlineType => exact node_inline_formattable has h
  | inlineField => exact node_inline_formattable has h
  | inlineMethod => exact node_inline_formattable has h

mutual

/-- Whatever tree is read has a text, whether it was one or was put together from objects. -/
theorem formattable_of_tree : ∀ {v : Json} {t : SigTree}, Decode.tree v = .ok t → t.Formattable
  | .string s, t, h => by
      rw [Decode.tree] at h
      split at h
      · cases h
      · cases hp : SigTree.parse s with
        | error f => rw [hp] at h; cases h
        | ok u =>
            rw [hp] at h
            cases h
            exact SigTree.exists_parse_iff.1 ⟨_, hp⟩
  | .object ms, t, h => by
      rw [Decode.tree] at h
      obtain ⟨k, -, h⟩ := bind_eq_ok.1 h
      obtain ⟨as, has, h⟩ := bind_eq_ok.1 h
      exact node_formattable (formattable_of_arguments has) h
  | .null, t, h => by cases h
  | .bool _, t, h => by cases h
  | .int _, t, h => by cases h
  | .array _, t, h => by cases h

theorem formattable_of_arguments : ∀ {ms : List (Bytes × Json)} {as : List SigTree},
    Decode.arguments ms = .ok as → ∀ a ∈ as, a.Formattable
  | [], as, h => by
      cases h
      exact fun _ ha => absurd ha List.not_mem_nil
  | (k, v) :: ms, as, h => by
      rw [Decode.arguments] at h
      split at h
      · exact formattable_of_argumentList h
      · exact formattable_of_arguments h

theorem formattable_of_argumentList : ∀ {v : Json} {as : List SigTree},
    Decode.argumentList v = .ok as → ∀ a ∈ as, a.Formattable
  | .array es, as, h => formattable_of_trees h
  | .null, as, h => by
      cases h
      exact fun _ ha => absurd ha List.not_mem_nil
  | .string _, as, h => by cases h
  | .object _, as, h => by cases h
  | .bool _, as, h => by cases h
  | .int _, as, h => by cases h

theorem formattable_of_trees : ∀ {es : List Json} {as : List SigTree},
    Decode.trees es = .ok as → ∀ a ∈ as, a.Formattable
  | [], as, h => by
      cases h
      exact fun _ ha => absurd ha List.not_mem_nil
  | e :: es, as, h => by
      rw [Decode.trees] at h
      obtain ⟨t, ht, h⟩ := bind_eq_ok.1 h
      obtain ⟨ts, hts, h⟩ := bind_eq_ok.1 h
      cases h
      exact List.forall_mem_cons.2 ⟨formattable_of_tree ht, formattable_of_trees hts⟩

end

theorem tree_yields : Yields Decode.tree Formattable := fun _ _ h => formattable_of_tree h

theorem formattable_of_requiredTree {ms : Decode.Members} {k : Bytes} {t : SigTree}
    (h : Decode.requiredTree ms k = .ok t) : t.Formattable := by
  obtain ⟨v, -, h⟩ := bind_eq_ok.1 h
  exact formattable_of_tree h

/-! ### Constants and literals -/

/-- A value that is read from a slot is of the type it is read as, and no signalling NaN. -/
theorem of_ofSlot {slot : Int64} {code : UInt8} {v : ConstantValue}
    (h : (ConstantValue.ofSlot slot code).result = .ok v) :
    (∃ e, v.elementType? = some e ∧ code = e.code) ∧ ∀ b, v = .r4 b → ¬ FloatBits.IsSignalling b := by
  rw [ConstantValue.ofSlot] at h
  cases he : ElementType.ofCode? code with
  | none => rw [he] at h; cases h
  | some e =>
      rw [he] at h
      have hc := (ElementType.code_of_ofCode? he).symm
      cases e
      case r4 =>
        cases h
        refine ⟨⟨_, rfl, hc⟩, ?_⟩
        rintro _ ⟨⟩
        exact FloatBits.not_isSignalling_narrow _
      all_goals
        cases h
        try exact ⟨⟨_, rfl, hc⟩, by rintro _ ⟨⟩⟩

theorem constant_yields : Yields (fun v => (Decode.constant v).result) Constant.Durable := by
  intro v c h
  unfold Decode.constant at h
  simp only [Warned.result_bind, Warned.result_liftM] at h
  obtain ⟨ms, -, h⟩ := bind_eq_ok.1 h
  obtain ⟨type, -, h⟩ := bind_eq_ok.1 h
  split at h
  · rw [Warned.result_bind] at h
    cases h
  · split at h
    · rw [Warned.result_bind] at h
      obtain ⟨s, -, h⟩ := bind_eq_ok.1 h
      cases h
      exact ⟨.inr (.inl ⟨s, rfl⟩), by rintro _ ⟨⟩⟩
    · simp only [Warned.result_bind, Warned.result_liftM, Warned.result_mapError] at h
      obtain ⟨slot, -, h⟩ := bind_eq_ok.1 h
      obtain ⟨value, hv, h⟩ := bind_eq_ok.1 h
      cases h
      obtain ⟨type, quiet⟩ := of_ofSlot (mapError_eq_ok.1 hv)
      exact ⟨.inr (.inr type), quiet⟩
    · cases h
      exact ⟨.inl rfl, by rintro _ ⟨⟩⟩

theorem literal_durable {tag : Bytes} {v : Json} {e : ElementType} {o : Operand}
    (h : (Decode.literal tag v e).result = .ok o) : o.Durable := by
  unfold Decode.literal at h
  simp only [Warned.result_bind, Warned.result_liftM, Warned.result_mapError] at h
  obtain ⟨slot, -, h⟩ := bind_eq_ok.1 h
  obtain ⟨value, hv, h⟩ := bind_eq_ok.1 h
  obtain ⟨-, quiet⟩ := of_ofSlot (mapError_eq_ok.1 hv)
  split at h
  · cases h
    exact quiet _ rfl
  · cases h
    trivial
  · cases h

/-- Literals and trees are checked; there is nothing to check in the other operands. -/
theorem taggedOperand_durable {tag : Bytes} {v : Json} {o : Operand}
    (h : (Decode.taggedOperand tag v).result = .ok o) : o.Durable := by
  have unchecked : ∀ {β : Type} {read : Decode.Read β} {f : β → Operand},
      (∀ b, (f b).Durable) → (read >>= fun b => (pure (f b) : Decode.Noted Operand).result) = .ok o →
      o.Durable := by
    intro β read f hf h
    obtain ⟨b, -, h⟩ := bind_eq_ok.1 h
    cases h
    exact hf b
  unfold Decode.taggedOperand at h
  split at h
  · exact unchecked (f := .int32) (fun _ => trivial) (Warned.result_bind _ _ ▸ h)
  split at h
  · exact unchecked (f := .int64) (fun _ => trivial) (Warned.result_bind _ _ ▸ h)
  split at h
  · exact literal_durable h
  split at h
  · exact literal_durable h
  split at h
  · exact unchecked (f := .string) (fun _ => trivial) (Warned.result_bind _ _ ▸ h)
  split at h
  · exact unchecked (f := .targets) (fun _ => trivial) (Warned.result_bind _ _ ▸ h)
  split at h
  · rw [Warned.result_bind] at h
    obtain ⟨t, ht, h⟩ := bind_eq_ok.1 h
    cases h
    exact formattable_of_tree ht
  · cases h

theorem operand_yields : Yields (fun v => (Decode.operand v).result) Operand.Durable := by
  intro v o h
  unfold Decode.operand at h
  simp only [Warned.result_bind, Warned.result_liftM] at h
  obtain ⟨ms, -, h⟩ := bind_eq_ok.1 h
  split at h
  · exact taggedOperand_durable h
  · cases h

/-! ### Parts of definitions -/

theorem customAttribute_yields : Yields Decode.customAttribute CustomAttribute.Durable := by
  intro v a h
  simp only [Decode.customAttribute, bind_eq_ok, pure_eq_ok] at h
  obtain ⟨ms, -, c, -, constructor, hc, -, -, rawData, -, rfl⟩ := h
  exact token_yields c constructor hc

theorem customAttributes_durable {ms : Decode.Members} {o : Option (List CustomAttribute)}
    (h : Decode.customAttributes ms = .ok o) : ∀ as ∈ o, ∀ a ∈ as, a.Durable :=
  customAttribute_yields.optionalList h

theorem genericParameter_yields : Yields Decode.genericParameter GenericParameter.Durable := by
  intro v p h
  simp only [Decode.genericParameter, bind_eq_ok, pure_eq_ok] at h
  obtain ⟨ms, -, name, -, attributes, -, number, -, constraints, hc, rfl⟩ := h
  exact ⟨tree_yields.optionalList hc⟩

theorem genericParameters_durable {ms : Decode.Members} {o : Option (List GenericParameter)}
    (h : Decode.genericParameters ms = .ok o) : ∀ ps ∈ o, ∀ p ∈ ps, p.Durable :=
  genericParameter_yields.optionalList h

theorem property_yields : Yields Decode.property Property.Durable := by
  intro v p h
  simp only [Decode.property, bind_eq_ok, pure_eq_ok] at h
  obtain ⟨ms, -, name, -, signature, hs, attributes, -, get, hg, set, hset, customs, hc, rfl⟩ := h
  exact ⟨formattable_of_requiredTree hs, token_yields.optional hg, token_yields.optional hset,
    customAttributes_durable hc⟩

theorem event_yields : Yields Decode.event Event.Durable := by
  intro v e h
  simp only [Decode.event, bind_eq_ok, pure_eq_ok] at h
  obtain ⟨ms, -, name, -, type, ht, attributes, -, add, ha, remove, hr, invoke, hi, customs, hc, rfl⟩ := h
  exact ⟨formattable_of_requiredTree ht, token_yields.optional ha, token_yields.optional hr,
    token_yields.optional hi, customAttributes_durable hc⟩

theorem parameter_yields : Yields (fun v => (Decode.parameter v).result) Parameter.Durable := by
  intro v p h
  unfold Decode.parameter at h
  simp only [Warned.result_bind, Warned.result_liftM, Warned.result_pure, Decode.result_optional,
    bind_eq_ok, Except.ok.injEq] at h
  obtain ⟨ms, -, name, -, sequence, -, attributes, -, customs, hc, constant, hk, rfl⟩ := h
  exact ⟨constant_yields.optional hk, customAttributes_durable hc⟩

/-! ### Method bodies -/

theorem instruction_yields : Yields (fun v => (Decode.instruction v).result) Instruction.Durable := by
  intro v i h
  unfold Decode.instruction at h
  simp only [Warned.result_bind, Warned.result_liftM, Warned.result_pure, Decode.result_optional,
    bind_eq_ok, Except.ok.injEq] at h
  obtain ⟨ms, -, opcode, -, operand, ho, rfl⟩ := h
  exact operand_yields.optional ho

theorem handler_yields : Yields Decode.handler ExceptionHandler.Durable := by
  intro v e h
  simp only [Decode.handler, bind_eq_ok, pure_eq_ok] at h
  obtain ⟨ms, -, tryStart, -, tryEnd, -, filterStart, -, handlerStart, -, handlerEnd, -, catchType, hc,
    handlerType, -, rfl⟩ := h
  exact tree_yields.optional hc

theorem body_yields : Yields (fun v => (Decode.body v).result) MethodBody.Durable := by
  intro v b h
  unfold Decode.body at h
  simp only [Warned.result_bind, Warned.result_liftM, Warned.result_pure, Decode.result_requiredList,
    bind_eq_ok, Except.ok.injEq] at h
  obtain ⟨ms, -, instructions, hi, handlers, hh, locals, hl, maxStack, -, -, -, initLocals, -, rfl⟩ := h
  exact ⟨instruction_yields.requiredList hi, handler_yields.requiredList hh,
    tree_yields.requiredList hl⟩

/-! ### Entities -/

theorem memberIdentity_durable {ms : Decode.Members} {m : MemberIdentity}
    (h : Decode.memberIdentity ms = .ok m) : m.Durable := by
  simp only [Decode.memberIdentity, bind_eq_ok, pure_eq_ok] at h
  obtain ⟨name, -, type, ht, signature, hs, rfl⟩ := h
  exact ⟨formattable_of_requiredTree ht, formattable_of_requiredTree hs⟩

theorem typeData_durable {ms : Decode.Members} {d : TypeData} (h : Decode.typeData ms = .ok d) :
    d.Durable := by
  simp only [Decode.typeData, bind_eq_ok, pure_eq_ok] at h
  obtain ⟨attributes, -, baseType, hb, interfaces, hi, generics, hg, customs, hc, nested, hn, fields, hf,
    methods, hm, properties, hp, events, he, layout, -, rfl⟩ := h
  exact ⟨tree_yields.optional hb, tree_yields.optionalList hi, genericParameters_durable hg,
    customAttributes_durable hc, token_yields.optionalList hn, token_yields.optionalList hf,
    token_yields.optionalList hm, property_yields.optionalList hp, event_yields.optionalList he⟩

theorem fieldData_durable {ms : Decode.Members} {d : FieldData}
    (h : (Decode.fieldData ms).result = .ok d) : d.Durable := by
  unfold Decode.fieldData at h
  simp only [Warned.result_bind, Warned.result_liftM, Warned.result_pure, Decode.result_optional,
    bind_eq_ok, Except.ok.injEq] at h
  obtain ⟨attributes, -, customs, hc, initialValue, -, constant, hk, rfl⟩ := h
  exact ⟨constant_yields.optional hk, customAttributes_durable hc⟩

theorem methodData_durable {ms : Decode.Members} {d : MethodData}
    (h : (Decode.methodData ms).result = .ok d) : d.Durable := by
  unfold Decode.methodData at h
  simp only [Warned.result_bind, Warned.result_liftM, Warned.result_pure, Decode.result_optional,
    Decode.result_requiredList, bind_eq_ok, Except.ok.injEq] at h
  obtain ⟨attributes, -, implAttributes, -, parameters, hp, overrides, ho, generics, hg, customs, hc,
    body, hb, implMap, -, rfl⟩ := h
  exact ⟨parameter_yields.requiredList hp, body_yields.optional hb, token_yields.optionalList ho,
    genericParameters_durable hg, customAttributes_durable hc⟩

theorem memberReference_yields (what : Bytes) :
    Yields (fun v => (Decode.memberReference what v).result) MemberIdentity.Durable := by
  intro v m h
  unfold Decode.memberReference at h
  simp only [Warned.result_bind, Warned.result_liftM, bind_eq_ok] at h
  obtain ⟨ms, -, h⟩ := h
  exact memberIdentity_durable h

theorem typeDefinition_yields :
    Yields (fun v => (Decode.typeDefinition v).result) fun t => True ∧ t.2.Durable := by
  intro v t h
  unfold Decode.typeDefinition at h
  simp only [Warned.result_bind, Warned.result_liftM, Warned.result_pure, bind_eq_ok,
    Except.ok.injEq] at h
  obtain ⟨ms, -, id, -, data, hd, rfl⟩ := h
  exact ⟨trivial, typeData_durable hd⟩

theorem fieldDefinition_yields :
    Yields (fun v => (Decode.fieldDefinition v).result) fun f => f.1.Durable ∧ f.2.Durable := by
  intro v f h
  unfold Decode.fieldDefinition at h
  simp only [Warned.result_bind, Warned.result_liftM, Warned.result_pure, bind_eq_ok,
    Except.ok.injEq] at h
  obtain ⟨ms, -, id, hi, data, hd, rfl⟩ := h
  exact ⟨memberIdentity_durable hi, fieldData_durable hd⟩

theorem methodDefinition_yields :
    Yields (fun v => (Decode.methodDefinition v).result) fun m => m.1.Durable ∧ m.2.Durable := by
  intro v m h
  unfold Decode.methodDefinition at h
  simp only [Warned.result_bind, Warned.result_liftM, Warned.result_pure, bind_eq_ok,
    Except.ok.injEq] at h
  obtain ⟨ms, -, id, hi, data, hd, rfl⟩ := h
  exact ⟨memberIdentity_durable hi, methodData_durable hd⟩

/-! ### Documents -/

theorem addMembers_durable {read : Json → Decode.Noted α} (h : Yields (fun v => (read v).result) P)
    {repeated : Bytes → DocumentFault} (ms : Decode.Members) {m m' : Keyed α}
    (hm : ∀ e ∈ m.entries, P e.2) (ha : (Decode.addMembers repeated read ms m).result = .ok m') :
    ∀ e ∈ m'.entries, P e.2 := by
  induction ms generalizing m with
  | nil =>
      cases ha
      exact hm
  | cons n ms ih =>
      rw [Decode.addMembers, Warned.result_bind] at ha
      obtain ⟨a, hr, ha⟩ := bind_eq_ok.1 ha
      split at ha
      · next m₁ added =>
          refine ih ?_ ha
          rw [Keyed.entries_add? added]
          refine List.forall_mem_append.2 ⟨hm, fun e he => ?_⟩
          cases List.mem_singleton.1 he
          exact h _ a hr
      · cases ha

theorem keyed_durable {read : Json → Decode.Noted α} (h : Yields (fun v => (read v).result) P)
    {ms : Decode.Members} {k : Bytes} {repeated : Bytes → DocumentFault} {m : Keyed α}
    (hm : (Decode.keyed ms k repeated read).result = .ok m) : ∀ e ∈ m.entries, P e.2 := by
  unfold Decode.keyed at hm
  split at hm
  · cases hm
    exact fun _ he => absurd he List.not_mem_nil
  · rw [Warned.result_bind, Warned.result_liftM] at hm
    obtain ⟨ns, -, hm⟩ := bind_eq_ok.1 hm
    exact addMembers_durable h ns (fun _ he => absurd he List.not_mem_nil) hm

theorem part_durable {ι δ : Type} {identity : ι → Prop} {data : δ → Prop}
    {reference : Json → Decode.Noted ι} {definition : Json → Decode.Noted (ι × δ)}
    (hr : Yields (fun v => (reference v).result) identity)
    (hd : Yields (fun v => (definition v).result) fun d => identity d.1 ∧ data d.2) {root : Decode.Members}
    {name : Bytes} {s : PartitionSection ι δ}
    (h : (Decode.part root name reference definition).result = .ok s) : s.Durable identity data := by
  unfold Decode.part at h
  simp only [Warned.result_bind, Warned.result_liftM, Warned.result_pure, bind_eq_ok,
    Except.ok.injEq] at h
  obtain ⟨-, -, ms, -, references, hrs, definitions, hds, turns, -, rfl⟩ := h
  exact ⟨keyed_durable hr hrs, keyed_durable hd hds⟩

/-- Reading a number that is not negative without its sign keeps it. -/
theorem toNat_toUInt64 {i : Int64} (h : 0 ≤ i.toInt) : (i.toUInt64.toNat : Int) = i.toInt := by
  have signed : i.toInt = (i.toUInt64.toNat : Int).bmod 18446744073709551616 := by
    rw [← Int64.toInt_toBitVec, BitVec.toInt_eq_toNat_bmod]
    rfl
  have small := i.toUInt64.toNat_lt
  rw [Int.bmod_def] at signed
  omega

/-- Whatever is read from a document is durable. -/
theorem document_yields : Yields (fun v => (Decode.document v).result) Partition.Durable := by
  intro v p h
  unfold Decode.document at h
  simp only [Warned.result_bind, Warned.result_liftM, Warned.result_pure, bind_eq_ok,
    Except.ok.injEq] at h
  obtain ⟨root, -, v, -, options, ho, types, ht, fields, hf, methods, hm, rfl⟩ := h
  refine ⟨?_, part_durable (fun _ _ _ => trivial) typeDefinition_yields ht,
    part_durable (memberReference_yields _) fieldDefinition_yields hf,
    part_durable (memberReference_yields _) methodDefinition_yields hm⟩
  obtain ⟨lo, hi⟩ := bounds_of_integer ho
  have nat := toNat_toUInt64 lo
  change options.toUInt64.toNat % 4294967296 ≤ 15
  omega

end CilCatalog
