import CilCatalog.Proofs.Copying.Identity
import CilCatalog.Proofs.Copying.Join

/-!
# Writing members by name

The row that a writer finds or makes for the identity of a field or method stands for that member (`fieldRow_stands`, `methodRow_stands`).  A member that is not remembered is never found in the lists of its declaring type: whatever these hold is remembered, and no two identities have the same row.
-/

namespace CilCatalog

open Live

namespace Copy

variable {C : Copy} {p r : Row} {w w₂ w' : WriteState} {σ σ' : Store} {id : MemberIdentity} {type : Row}
  {sig sig' : CallSig} {t : TypeId}

/-! ### Kinds of signatures -/

theorem isField_of_raw (h : sig'.raw = sig.raw) (hk : sig'.isField = true) : sig.isField = true := by
  cases sig' with
  | field _ =>
      cases sig with
      | field _ => rfl
      | method raw hraw _ _ _ _ =>
          obtain rfl : CallingConvention.field.code = raw := h
          exact absurd hraw (by decide)
      | null | locals _ | inst _ => exact nomatch h
  | _ => exact nomatch hk

theorem isMethod_of_raw (h : sig'.raw = sig.raw) (hn : sig.isNull = false)
    (hk : sig'.isMethod = true) : sig.isMethod = true := by
  cases sig' with
  | method raw _ _ _ _ _ =>
      have hlike : CallingConvention.isMethodLikeRaw raw = true := (Bool.and_eq_true_iff.1 hk).1
      cases sig with
      | null => exact nomatch hn
      | method raw' _ _ _ _ _ =>
          obtain rfl : raw = raw' := h
          exact hk
      | field _ =>
          obtain rfl : raw = CallingConvention.field.code := h
          exact absurd hlike (by decide)
      | locals _ =>
          obtain rfl : raw = CallingConvention.localSig.code := h
          exact absurd hlike (by decide)
      | inst _ =>
          obtain rfl : raw = CallingConvention.genericInst.code := h
          exact absurd hlike (by decide)
  | _ => exact nomatch hk

theorem ReadFrom.isNull (h : C.ReadFrom id type sig) : sig.isNull = false := by
  cases sig with
  | null => exact absurd h.sig Read.not_refuse
  | _ => rfl

/-! ### Members of the copy -/

/-- What renders an identity is the identity of a field made of the same parts. -/
theorem Renders.field {f : FieldId} (h : C.Renders σ id (Reading.memberIdentity · id.name (.typeDef t) sig'))
    (he : σ.Extends σ') (ht : σ.TypeIn C.base t) (hl : σ.Layered C.base C.image)
    (hf : f.index < σ'.fieldDefs.length) (hhead : (σ'.fieldDef f).head = (id.name, sig', some t)) :
    C.Renders σ' id (Reading.fieldIdentity · f) := by
  intro type sig hfrom σ'' he'
  have head := (he'.fields f hf).trans hhead
  change C.Follows _ (Reading.declaredIdentity σ'' "Field" (σ''.fieldDef f).head.1
    (σ''.fieldDef f).head.2.2 (σ''.fieldDef f).head.2.1)
  rw [head]
  refine Follows.declaredIdentity ?_ (h type sig hfrom σ'' (he.trans he'))
  rw [Store.image_extends ht.2 (he.trans he')]
  exact (hl t ht).1

/-- What renders an identity is the identity of a method made of the same parts. -/
theorem Renders.method {f : MethodId} (h : C.Renders σ id (Reading.memberIdentity · id.name (.typeDef t) sig'))
    (he : σ.Extends σ') (ht : σ.TypeIn C.base t) (hl : σ.Layered C.base C.image)
    (hf : f.index < σ'.methodDefs.length) (hhead : (σ'.methodDef f).head = (id.name, sig', some t)) :
    C.Renders σ' id (Reading.methodIdentity · f) := by
  intro type sig hfrom σ'' he'
  have head := (he'.methods f hf).trans hhead
  change C.Follows _ (Reading.declaredIdentity σ'' "Method" (σ''.methodDef f).head.1
    (σ''.methodDef f).head.2.2 (σ''.methodDef f).head.2.1)
  rw [head]
  refine Follows.declaredIdentity ?_ (h type sig hfrom σ'' (he.trans he'))
  rw [Store.image_extends ht.2 (he.trans he')]
  exact (hl t ht).1

/-- Members with equal signatures and the same name and declaring type have one identity. -/
theorem eq_of_renders {id' : MemberIdentity} {what : String} {name : Bytes} {d : Option TypeId}
    {y : Store → Reading MemberIdentity} {type' : Row} {sig₀ sig₀' : CallSig}
    (h : C.Renders σ id (Reading.memberIdentity · id.name (.typeDef t) sig'))
    (hfrom : C.ReadFrom id type sig) (h' : C.Renders σ id' y) (hfrom' : C.ReadFrom id' type' sig₀')
    (hy : y σ = Reading.declaredIdentity σ what name d sig₀) (hname : name = id.name)
    (hd : d = some t) (ht : (σ.typeDef t).image = C.image) (hsig : sig₀.sigEq sig' = true)
    (happart : TellApart sig₀.rows sig'.rows) : id' = id := by
  have hgives := h.gives hfrom
  have hgives' := h'.gives hfrom'
  have htree : Reading.memberIdentity σ name (.typeDef t) sig₀ =
      Reading.memberIdentity σ id.name (.typeDef t) sig' := by
    rw [hname]
    unfold Reading.memberIdentity
    rw [callSigTree_of_sigEq σ sig₀ sig' happart hsig]
  have hboth : Gives (y σ) (C.reader.onto C.image) id (C.reader.onto C.image) := by
    rw [hy, hd]
    refine gives_bind.2 ⟨t, _, gives_declaringType.2 ⟨rfl, ht, rfl⟩, ?_⟩
    rw [htree]
    exact hgives
  exact (hgives'.unique hboth).1

/-! ### Fields -/

variable (C) in
/-- The row stands for the field, and is remembered. -/
structure FieldHeld (w : WriteState) (id : MemberIdentity) (r : Row) : Prop where
  isField : C.IsField id
  stands : C.FieldStands w.store id r
  found : ∃ e, w.writer.fields.find? id = some e ∧ e.row = r

/-- A field that is not remembered is not in the list of its declaring type. -/
theorem findField?_eq_none (hw : C.Faithful .null w) (hst : w.TypeStep w₂) (hw₂ : C.Faithful .null w₂)
    (hnew : w.writer.fields.find? id = none) (ht : w₂.store.TypeIn C.base t)
    (hren : C.Renders w₂.store id (Reading.memberIdentity · id.name (.typeDef t) sig'))
    (hfrom : C.ReadFrom id type sig) (hmade : C.Made w₂.store w.store.nextRow sig'.rows) :
    w₂.store.findField? t id.name sig' = none := by
  cases hfind : w₂.store.findField? t id.name sig' with
  | none => rfl
  | some f =>
      have hmem := List.mem_of_find?_eq_some hfind
      have hequal := List.find?_some hfind
      rw [Bool.and_eq_true, beq_iff_eq] at hequal
      obtain ⟨hname, hsig⟩ := hequal
      obtain ⟨id', e, he, hrow⟩ := (hw₂.listed.fields ht hmem).resolve_left Row.noConfusion
      obtain ⟨-, hd, -⟩ := hw₂.ground.fields ht hmem
      -- the row of the other identity has been there from the start
      rw [hst.sameFields] at he
      obtain ⟨⟨⟨c, hc, hread⟩, -⟩, hs⟩ := hw.remembered.fields he
      obtain ⟨type', sig₀', hfrom', -⟩ := hc.readFrom hread
      rw [hrow] at hs
      cases hs with
      | defined _ _ _ _ _ hm hren' =>
          have hdef : w₂.store.fieldDef f = w.store.fieldDef f := by
            rw [Store.fieldDef, Store.fieldDef, hst.sameFieldDefs]
          rw [← hdef] at hm
          have happart := tellApart_of_made hm hw₂.ground (hw.image ▸ hst.assemblyRefs)
            (hw.image ▸ hst.typeRefs) hmade
          have heq := eq_of_renders hren hfrom (hren'.extends hst.store) hfrom' rfl hname hd
            (hw₂.ground.layered t ht).1 hsig happart
          rw [heq, hnew] at he
          cases he

theorem resolveField_stands (hid : ∃ c, C.FieldSource c ∧ Read C.source C.reader c id)
    (hw : C.Faithful .null w) (hnew : w.writer.fields.find? id = none)
    (h : Gives (Writing.resolveField C.catalog id) w r w') :
    ∃ p, (p = .null ∨ p = r) ∧ C.Faithful p w' ∧ w.Refers w' ∧
      w'.writer.fields = w.writer.fields ∧ C.IsField id ∧ C.FieldStands w'.store id r := by
  obtain ⟨c, hc, hread⟩ := hid
  obtain ⟨type, sig, hfrom, -⟩ := hc.readFrom hread
  rw [Writing.resolveField_eq] at h
  obtain ⟨parent, w₁, hp, h⟩ := gives_bind.1 h
  obtain ⟨sig', w₂, hs, h⟩ := gives_bind.1 h
  obtain ⟨hw₂, hst, hmade, hparent, -, hren⟩ := memberIdentity_written hfrom hw hp hs
  obtain ⟨hkind, h⟩ := gives_guard.1 h
  obtain ⟨-, h⟩ := gives_bind_askable.1 h
  rw [Bool.not_eq_true', Bool.not_eq_false] at hkind
  have hisField : C.IsField id := by
    refine ⟨⟨c, hc, hread⟩, fun hfrom => ?_⟩
    obtain ⟨-, -, -, -, hraw, -⟩ := memberIdentity_written hfrom hw hp hs
    exact isField_of_raw hraw hkind
  split at h
  · next t _ _ _ =>
      have ht := hparent.inside rfl
      rw [gives_bind_store, findField?_eq_none hw hst hw₂ hnew ht hren hfrom hmade] at h
      dsimp only at h
      rw [hw₂.gives_making] at h
      obtain ⟨rfl, rfl⟩ := gives_pure.1 h
      have hjoins := joins_createField (C := C)
        (d := { name := id.name, signature := sig', attributes := Writing.assemblyAccess }) ht
        (hmade.grow (Nat.zero_le _) (List.Subset.refl _) (List.Subset.refl _) (Nat.le_refl _))
      obtain ⟨hw', hst'⟩ := hw₂.join hjoins
        (fun f hf => congrArg Row.fieldDef (List.mem_singleton.1 hf).symm) nofun
      obtain ⟨-, hlt, hdecl, hrows⟩ := hjoins.newFields _ List.mem_cons_self
      exact ⟨_, .inr rfl, hw', hst.toRefers.trans hst', hst.sameFields, hisField,
        .defined _ t hlt (ht.extends hjoins.store) hdecl hrows
          (hren.field hjoins.store ht hw₂.ground.layered hlt (congrArg FieldDef.head (fieldDef_createField t _)))⟩
  · next hno =>
      obtain ⟨rfl, rfl⟩ := gives_making.1 h
      rw [hw₂.image]
      obtain ⟨hw', hst'⟩ := hw₂.furnish (furnishes_modifyImage hw₂.ground (.memberRef · id.name sig' parent)
        (f := fun m => { m with memberRefs := m.memberRefs ++ [.memberRef w₂.store.nextRow id.name sig' parent] })
        (fun _ => rfl) (fun _ => rfl) fun _ => rfl)
      exact ⟨.null, .inl rfl, hw', (hst.trans hst').toRefers, hst.sameFields, hisField,
        .referred _ sig' parent hkind hparent.isType (hren.extends hst'.store)⟩

/-- The row that a writer finds or makes for a field stands for it. -/
theorem fieldRow_stands (hid : ∃ c, C.FieldSource c ∧ Read C.source C.reader c id)
    (hw : C.Faithful .null w) (h : Gives (Writing.fieldRow C.catalog id) w r w') :
    C.Faithful .null w' ∧ w.Refers w' ∧ C.FieldHeld w' id r := by
  unfold Writing.fieldRow at h
  rw [gives_bind_writer] at h
  split at h
  · next e he =>
      obtain ⟨rfl, rfl⟩ := gives_pure.1 h
      obtain ⟨hisField, hs⟩ := hw.remembered.fields he
      exact ⟨hw, .refl _, hisField, hs, e, he, rfl⟩
  · next hnew =>
      obtain ⟨r₁, w₁, hr, h⟩ := gives_bind.1 h
      obtain ⟨p, hp, hw₁, hst, hsame, hisField, hs⟩ := resolveField_stands hid hw hnew hr
      rw [gives_bind_modifyWriter] at h
      obtain ⟨rfl, rfl⟩ := gives_pure.1 h
      have hnew₁ : w₁.writer.fields.find? id = none := by rw [hsame, hnew]
      obtain ⟨hw₂, hst₂⟩ := hw₁.rememberField hp hisField hs hnew₁
      exact ⟨hw₂, hst.trans hst₂, hisField, hs, _, Memory.find?_append_self hnew₁, rfl⟩

/-! ### Methods -/

variable (C) in
/-- The row stands for the method, and is remembered. -/
structure MethodHeld (w : WriteState) (id : MemberIdentity) (r : Row) : Prop where
  isMethod : C.IsMethod id
  stands : C.MethodStands w.store id r
  found : ∃ e, w.writer.methods.find? id = some e ∧ e.row = r

/-- A method that is not remembered is not in the list of its declaring type. -/
theorem findMethod?_eq_none (hw : C.Faithful .null w) (hst : w.TypeStep w₂) (hw₂ : C.Faithful .null w₂)
    (hnew : w.writer.methods.find? id = none) (ht : w₂.store.TypeIn C.base t)
    (hren : C.Renders w₂.store id (Reading.memberIdentity · id.name (.typeDef t) sig'))
    (hfrom : C.ReadFrom id type sig) (hmade : C.Made w₂.store w.store.nextRow sig'.rows) :
    w₂.store.findMethod? t id.name sig' = none := by
  cases hfind : w₂.store.findMethod? t id.name sig' with
  | none => rfl
  | some f =>
      have hmem := List.mem_of_find?_eq_some hfind
      have hequal := List.find?_some hfind
      rw [Bool.and_eq_true, beq_iff_eq] at hequal
      obtain ⟨hname, hsig⟩ := hequal
      obtain ⟨id', e, he, hrow⟩ := (hw₂.listed.methods ht hmem).resolve_left Row.noConfusion
      obtain ⟨-, hd, -⟩ := hw₂.ground.methods ht hmem
      -- the row of the other identity has been there from the start
      rw [hst.sameMethods] at he
      obtain ⟨⟨⟨c, hc, hread⟩, -⟩, hs⟩ := hw.remembered.methods he
      obtain ⟨type', sig₀', hfrom', -⟩ := hc.readFrom hread
      rw [hrow] at hs
      cases hs with
      | defined _ _ _ _ _ hm hren' =>
          have hdef : w₂.store.methodDef f = w.store.methodDef f := by
            rw [Store.methodDef, Store.methodDef, hst.sameMethodDefs]
          rw [← hdef] at hm
          have happart := tellApart_of_made hm hw₂.ground (hw.image ▸ hst.assemblyRefs)
            (hw.image ▸ hst.typeRefs) hmade
          have heq := eq_of_renders hren hfrom (hren'.extends hst.store) hfrom' rfl hname hd
            (hw₂.ground.layered t ht).1 hsig happart
          rw [heq, hnew] at he
          cases he

theorem resolveMethod_stands (hid : ∃ c, C.MethodSource c ∧ Read C.source C.reader c id)
    (hw : C.Faithful .null w) (hnew : w.writer.methods.find? id = none)
    (h : Gives (Writing.resolveMethod C.catalog id) w r w') :
    ∃ p, (p = .null ∨ p = r) ∧ C.Faithful p w' ∧ w.Refers w' ∧
      w'.writer.methods = w.writer.methods ∧ C.IsMethod id ∧ C.MethodStands w'.store id r ∧
      ∀ f, r = .methodDef f → (w'.store.methodDef f).body = none := by
  obtain ⟨c, hc, hread⟩ := hid
  obtain ⟨type, sig, hfrom, -⟩ := hc.readFrom hread
  rw [Writing.resolveMethod_eq] at h
  obtain ⟨parent, w₁, hp, h⟩ := gives_bind.1 h
  obtain ⟨sig', w₂, hs, h⟩ := gives_bind.1 h
  obtain ⟨hw₂, hst, hmade, hparent, -, hren⟩ := memberIdentity_written hfrom hw hp hs
  obtain ⟨hkind, h⟩ := gives_guard.1 h
  obtain ⟨-, h⟩ := gives_bind_askable.1 h
  rw [Bool.not_eq_true', Bool.not_eq_false] at hkind
  have hisMethod : C.IsMethod id := by
    refine ⟨⟨c, hc, hread⟩, fun hfrom => ?_⟩
    obtain ⟨-, -, -, -, hraw, -⟩ := memberIdentity_written hfrom hw hp hs
    exact isMethod_of_raw hraw hfrom.isNull hkind
  split at h
  · next t _ _ _ =>
      have ht := hparent.inside rfl
      rw [gives_bind_store, findMethod?_eq_none hw hst hw₂ hnew ht hren hfrom hmade] at h
      dsimp only at h
      rw [hw₂.gives_making] at h
      obtain ⟨rfl, rfl⟩ := gives_pure.1 h
      have hjoins := joins_createMethod (C := C)
        (d := { name := id.name, signature := sig', attributes := Writing.assemblyAccess }) ht
        (hmade.grow (Nat.zero_le _) (List.Subset.refl _) (List.Subset.refl _) (Nat.le_refl _))
      obtain ⟨hw', hst'⟩ := hw₂.join hjoins nofun
        fun f hf => congrArg Row.methodDef (List.mem_singleton.1 hf).symm
      obtain ⟨-, hlt, hdecl, hrows⟩ := hjoins.newMethods _ List.mem_cons_self
      refine ⟨_, .inr rfl, hw', hst.toRefers.trans hst', hst.sameMethods, hisMethod,
        .defined _ t hlt (ht.extends hjoins.store) hdecl hrows
          (hren.method hjoins.store ht hw₂.ground.layered hlt (congrArg MethodDef.head (methodDef_createMethod t _))), ?_⟩
      rintro f ⟨⟩
      exact congrArg MethodDef.body (methodDef_createMethod t _)
  · next hno =>
      obtain ⟨rfl, rfl⟩ := gives_making.1 h
      rw [hw₂.image]
      obtain ⟨hw', hst'⟩ := hw₂.furnish (furnishes_modifyImage hw₂.ground (.memberRef · id.name sig' parent)
        (f := fun m => { m with memberRefs := m.memberRefs ++ [.memberRef w₂.store.nextRow id.name sig' parent] })
        (fun _ => rfl) (fun _ => rfl) fun _ => rfl)
      exact ⟨.null, .inl rfl, hw', (hst.trans hst').toRefers, hst.sameMethods, hisMethod,
        .referred _ sig' parent hkind hparent.isType (hren.extends hst'.store), nofun⟩

/-- The row that a writer finds or makes for a method stands for it. -/
theorem methodRow_stands (hid : ∃ c, C.MethodSource c ∧ Read C.source C.reader c id)
    (hw : C.Faithful .null w) (h : Gives (Writing.methodRow C.catalog id) w r w') :
    C.Faithful .null w' ∧ w.Refers w' ∧ C.MethodHeld w' id r := by
  unfold Writing.methodRow at h
  rw [gives_bind_writer] at h
  split at h
  · next e he =>
      obtain ⟨rfl, rfl⟩ := gives_pure.1 h
      obtain ⟨hisMethod, hs⟩ := hw.remembered.methods he
      exact ⟨hw, .refl _, hisMethod, hs, e, he, rfl⟩
  · next hnew =>
      obtain ⟨r₁, w₁, hr, h⟩ := gives_bind.1 h
      obtain ⟨p, hp, hw₁, hst, hsame, hisMethod, hs, hb⟩ := resolveMethod_stands hid hw hnew hr
      rw [gives_bind_modifyWriter] at h
      obtain ⟨rfl, rfl⟩ := gives_pure.1 h
      have hnew₁ : w₁.writer.methods.find? id = none := by rw [hsame, hnew]
      obtain ⟨hw₂, hst₂⟩ := hw₁.rememberMethod hp hisMethod hs hnew₁ hb
      exact ⟨hw₂, hst.trans hst₂, hisMethod, hs, _, Memory.find?_append_self hnew₁, rfl⟩

end Copy

end CilCatalog
