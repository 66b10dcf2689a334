import CilCatalog.Proofs.Copying.Whole

/-!
# Copies that are complete

What a writer makes in a type of the copy has been named by something in the module, and so is the copy of a child that the type of the module has.  When all of these have been written, nothing else is left in the lists of the copy.

* `Copy.NestedCopied.exact`, `Copy.FieldsCopied.exact`, `Copy.MethodsCopied.exact`: the lists of the copy are those of the module, one by one.
-/

namespace CilCatalog

open Live

/-! ### Lists that start with others -/

/-- If nothing is behind, the lists are related as a whole. -/
theorem Copy.StartsWith.exact {α : Type} {R : α → α → Prop} {as bs : List α}
    (h : Copy.StartsWith R as bs) (hb : ∀ b ∈ bs, ∃ a ∈ as, ∀ c, R a c → c = b) :
    List.Forall₂ R as bs := by
  obtain ⟨cs, ds, rfl, hne, hcs⟩ := h
  cases ds with
  | nil => rwa [List.append_nil]
  | cons d ds =>
      obtain ⟨a, ha, hd⟩ := hb d (List.mem_append_right _ List.mem_cons_self)
      obtain ⟨c, hc, hR⟩ := forall₂_mem_left hcs ha
      obtain rfl := hd c hR
      exact absurd hc (hne c List.mem_cons_self)

namespace Copy

variable {C : Copy} {w : WriteState} {σ : Store} {t n : TypeId} {level : Level}

/-! ### Identities -/

/-- A type of the copy that stands for an identity has it. -/
theorem Stands.eq_definitionIdentity {id : TypeIdentity} (h : C.Stands σ (.typeDef n) id) :
    id = Reading.definitionIdentity σ n := by
  cases h.names with
  | native => rfl

/-- A type of the copy has the identity of the type that has been written. -/
theorem Remembered.identity_eq (hr : C.Remembered w) (h : C.TypeWritten w level t n) :
    Reading.definitionIdentity w.store n = Reading.definitionIdentity C.source.store t := by
  obtain ⟨r, hf, hrow, -⟩ := h
  have hs := (hr.types (definitionIdentity_normal _ t) hf).stands
  rw [hrow] at hs
  exact hs.eq_definitionIdentity.symm

/-- The identity of a nested type says what that of the type around it is. -/
theorem outer_of_nested {s s' : Store} {t t' o o' : TypeId} (hr : s.Rooted t) (hr' : s'.Rooted t')
    (ho : (s.typeDef t).declaring = some o) (ho' : (s'.typeDef t').declaring = some o')
    (h : Reading.definitionIdentity s t = Reading.definitionIdentity s' t') :
    Reading.definitionIdentity s o = Reading.definitionIdentity s' o' := by
  rw [definitionIdentity_nested hr ho, definitionIdentity_nested hr' ho'] at h
  simp only [TypeIdentity.mk.injEq, Option.some.injEq, List.cons.injEq, true_and] at h
  obtain ⟨-, hns, hname, hrest⟩ := h
  have henclosing : (Reading.definitionIdentity s o).enclosing =
      (Reading.definitionIdentity s' o').enclosing := by
    rw [enclosing_eq (definitionIdentity_normal s o), enclosing_eq (definitionIdentity_normal s' o'),
      hrest]
  exact TypeIdentity.mk.injEq .. ▸ ⟨hname, hns, rfl, henclosing⟩

/-! ### Nested types -/

/-- The nested types of a type of the copy have been written for those of the type of the module. -/
theorem NestedCopied.exact (hw : C.Faithful .null w)
    (ht : C.source.store.Owns C.source.image t) (hn : C.TypeWritten w level t n)
    (h : C.NestedCopied w t n) :
    List.Forall₂ (C.TypeWritten w .withChildren) (C.source.store.typeDef t).nestedTypes
      (w.store.typeDef n).nestedTypes := by
  refine StartsWith.exact h fun d hd => ?_
  have hin := hw.remembered.typeIn hn
  obtain ⟨hdIn, hdecl⟩ := hw.ground.nested hin hd
  obtain ⟨id, e, hid, he, hrow⟩ := (hw.listed.types hin hd).resolve_left Row.noConfusion
  have hs := hw.remembered.types hid he
  have hident := (hrow ▸ hs.stands).eq_definitionIdentity
  -- the identity is that of a type of the module, which is nested in the original
  obtain ⟨u, hu, hid'⟩ | ⟨a, -, hid', -⟩ := hs.known
  · cases ho : (C.source.store.typeDef u).declaring with
    | none =>
        rw [hid', definitionIdentity_top ho] at hident
        rw [definitionIdentity_nested (hw.ground.layered.rooted hdIn) hdecl] at hident
        cases congrArg TypeIdentity.enclosing hident
    | some o =>
        have houter := outer_of_nested (C.regular.rooted_near hu) (hw.ground.layered.rooted hdIn) ho
          hdecl (hid'.symm.trans hident)
        obtain rfl := C.regular.distinct (.around hu ho) (.own ht)
          (houter.trans (hw.remembered.identity_eq hn))
        refine ⟨u, (C.regular.nested ht u).2 ho, fun c hc => ?_⟩
        obtain ⟨e', he', hrow', -⟩ := hc
        rw [← hid', he] at he'
        cases he'
        cases hrow.symm.trans hrow'
        rfl
  · rw [hident] at hid'
    cases hid'

/-! ### Members -/

theorem isNull_of_sigEq {a b : CallSig} (h : a.sigEq b = true) (hb : b.isNull = false) :
    a.isNull = false := by
  cases a with
  | null => cases b <;> simp_all [CallSig.sigEq, CallSig.isNull]
  | _ => rfl

/-- What is on record is so for a reader of the copy as well. -/
theorem sound_onto (σ : Store) : Sound (C.target σ) (C.reader.onto C.image) :=
  ⟨rfl, C.sound.options, C.sound.types, C.sound.fields, C.sound.methods⟩

/-- The type in the identity of a member of the copy is the one that declares it. -/
theorem token_of_declared {what : String} {name : Bytes} {d : Option TypeId} {sig : CallSig}
    {id : MemberIdentity} (hd : d = some n)
    (h : Gives (Reading.declaredIdentity σ what name d sig) (C.reader.onto C.image) id
      (C.reader.onto C.image)) :
    ∃ r, C.reader.registry.types.find? (Reading.definitionIdentity σ n) = some r ∧
      id.type = .token r.token := by
  obtain ⟨t, ht, hid⟩ := (Read.of_gives (sound_onto σ) h).of_bind (Steady.declaringType _ _ _ _)
    fun t => Steady.memberIdentity _ _ _ _
  cases hd
  obtain ⟨⟨⟩, -⟩ := ht.of_declaringType
  obtain ⟨tree, htree, hid⟩ := hid.of_bind (Steady.typeTree _ _) fun _ =>
    (Steady.callSigTree _ _).bind fun _ => .pure _
  obtain ⟨c, -, rfl⟩ := hid.of_bind_pure (Steady.callSigTree _ _)
  obtain ⟨k, hk, rfl⟩ := htree.of_bind_pure (Steady.namedType _ (.typeDef n))
  have hnormal := definitionIdentity_normal σ n
  obtain ⟨_, -, hk⟩ := hk.of_bind (.checkType _ _) fun _ => .typeReference hnormal
  obtain ⟨r, hr, rfl⟩ := hk.of_typeReference hnormal
  exact ⟨r, hr, rfl⟩

/-- A row of the module that is read as the token of one of its types is the definition of that type. -/
theorem eq_typeDef_of_token {type : Row} {r : Registration}
    (ht : C.source.store.Owns C.source.image t) (hp : C.source.Plain type.rows)
    (hr : C.reader.registry.types.find? (Reading.definitionIdentity C.source.store t) = some r)
    (h : Read C.source C.reader (Reading.typeTree C.source.store type) (.token r.token)) :
    type = .typeDef t := by
  have named : ∀ {k}, Read C.source C.reader (Reading.namedType C.source.store type) k →
      SigTree.token k = .token r.token → type = .typeDef t := by
    rintro k hk ⟨⟩
    obtain ⟨id, e, hn, he, hid⟩ := read_namedType hk
    obtain ⟨e', he', hid', -⟩ := C.sound.types.found _ r (definitionIdentity_normal _ t) hr
    cases he.symm.trans he'
    rw [← hid, hid'] at hn
    obtain ⟨u, rfl, hu, heq⟩ := hn.eq_typeDef rfl
    have hown : C.source.store.Owns C.source.image u := ⟨hp.types u List.mem_cons_self, hu⟩
    rw [C.regular.distinct (.own hown) (.own ht) heq]
  cases type with
  | typeSpec n u =>
      obtain ⟨code, as, heq⟩ := typeSig_of_read h
      cases heq
  | _ =>
      obtain ⟨k, hk, heq⟩ := h.of_bind_pure (Steady.namedType _ _)
      exact named hk heq.symm

/-- Where signatures are equal, a reference to a member has the identity of the member. -/
theorem read_declaredIdentity {what : String} {name : Bytes} {d : Option TypeId} {c c' : CallSig}
    {id : MemberIdentity} (hd : d = some t) (ht : C.source.store.Owns C.source.image t)
    (hc : c.sigEq c' = true) (apart : TellApart c.rows c'.rows)
    (h : Read C.source C.reader (Reading.memberIdentity C.source.store name (.typeDef t) c') id) :
    Read C.source C.reader (Reading.declaredIdentity C.source.store what name d c) id := by
  have heq : Reading.memberIdentity C.source.store name (.typeDef t) c =
      Reading.memberIdentity C.source.store name (.typeDef t) c' := by
    unfold Reading.memberIdentity
    rw [callSigTree_of_sigEq _ _ _ apart hc]
  have hgives := h.gives (Steady.memberIdentity _ _ _ _) C.sound
  refine .of_gives C.sound (gives_bind.2 ⟨t, C.reader,
    gives_declaringType.2 ⟨hd, ht.2.trans C.sound.image.symm, rfl⟩, ?_⟩)
  rw [heq]
  exact hgives

/-- A field that the copy of a type has been given is one that the type has. -/
theorem IsField.mem_fields {id : MemberIdentity} {r : Registration} (h : C.IsField id)
    (ht : C.source.store.Owns C.source.image t)
    (hr : C.reader.registry.types.find? (Reading.definitionIdentity C.source.store t) = some r)
    (hid : id.type = .token r.token) : ∃ f ∈ (C.source.store.typeDef t).fields,
      Read C.source C.reader (Reading.fieldIdentity C.source.store f) id := by
  obtain ⟨⟨c, hc, hread⟩, hkind⟩ := h
  cases hc with
  | defined f =>
      obtain ⟨u, hd, -, -, hfrom, -⟩ :=
        readFrom_of_declaredIdentity (fun _ => plain_of_field) hread
      cases eq_typeDef_of_token ht hfrom.plainType hr (hid ▸ hfrom.type)
      exact ⟨f, (C.regular.fields ht f).2 hd, hread⟩
  | referred n name sig parent ho =>
      have hplain := (plain_of_has ho).tail
      obtain ⟨-, hfrom⟩ := readFrom_of_memberIdentity hplain.right hplain.left hread
      cases eq_typeDef_of_token ht hfrom.plainType hr (hid ▸ hfrom.type)
      rcases C.regular.members (ho _ List.mem_cons_self) ht with ⟨f, hf, rfl, hsig⟩ | ⟨m, -, -, hsig⟩
      · have hd := (C.regular.fields ht f).1 hf
        refine ⟨f, hf, read_declaredIdentity hd ht hsig (fun x hx y hy => ?_) hread⟩
        exact C.regular.rows (Source.has_field ht.2 hd _ (FieldDef.signature_rows _ hx))
          (ho _ (List.mem_cons_of_mem _ (List.mem_append_left _ hy)))
      · have := isField_of_raw (CallSig.raw_of_sigEq hsig).symm (hkind hfrom)
        rw [C.regular.methodKinds m] at this
        cases this

/-- The fields of a type of the copy have been written for those of the type of the module. -/
theorem FieldsCopied.exact (hw : C.Faithful .null w)
    (ht : C.source.store.Owns C.source.image t) (hn : C.TypeWritten w level t n)
    (h : C.FieldsCopied w t n) :
    List.Forall₂ (C.FieldWritten w) (C.source.store.typeDef t).fields (w.store.typeDef n).fields := by
  refine StartsWith.exact h fun d hd => ?_
  have hin := hw.remembered.typeIn hn
  obtain ⟨-, hdecl, -⟩ := hw.ground.fields hin hd
  obtain ⟨id, e, he, hrow⟩ := (hw.listed.fields hin hd).resolve_left Row.noConfusion
  obtain ⟨hfield, hs⟩ := hw.remembered.fields he
  obtain ⟨c, hc, hread⟩ := hfield.source
  obtain ⟨type, sig, hfrom, -⟩ := hc.readFrom hread
  rw [hrow] at hs
  cases hs with
  | defined _ _ _ _ _ _ hren =>
      obtain ⟨r, hr, htype⟩ := token_of_declared hdecl (hren.gives hfrom)
      rw [hw.remembered.identity_eq hn] at hr
      obtain ⟨f, hf, hid⟩ := hfield.mem_fields ht hr htype
      refine ⟨f, hf, fun c hc => ?_⟩
      obtain ⟨id', e', hid', he', hrow', -⟩ := hc
      obtain rfl := hid.unique hid' (.fieldIdentity _ f) C.sound
      cases he.symm.trans he'
      cases hrow.symm.trans hrow'
      rfl

/-- A method that the copy of a type has been given is one that the type has. -/
theorem IsMethod.mem_methods {id : MemberIdentity} {r : Registration} (h : C.IsMethod id)
    (ht : C.source.store.Owns C.source.image t)
    (hr : C.reader.registry.types.find? (Reading.definitionIdentity C.source.store t) = some r)
    (hid : id.type = .token r.token) : ∃ f ∈ (C.source.store.typeDef t).methods,
      Read C.source C.reader (Reading.methodIdentity C.source.store f) id := by
  obtain ⟨⟨c, hc, hread⟩, hkind⟩ := h
  cases hc with
  | defined f =>
      obtain ⟨u, hd, -, -, hfrom, -⟩ :=
        readFrom_of_declaredIdentity (fun _ => plain_of_method) hread
      cases eq_typeDef_of_token ht hfrom.plainType hr (hid ▸ hfrom.type)
      exact ⟨f, (C.regular.methods ht f).2 hd, hread⟩
  | referred n name sig parent ho =>
      have hplain := (plain_of_has ho).tail
      obtain ⟨-, hfrom⟩ := readFrom_of_memberIdentity hplain.right hplain.left hread
      cases eq_typeDef_of_token ht hfrom.plainType hr (hid ▸ hfrom.type)
      rcases C.regular.members (ho _ List.mem_cons_self) ht with ⟨m, -, -, hsig⟩ | ⟨f, hf, rfl, hsig⟩
      · have hnull : (C.source.store.fieldDef m).signature.isNull = false :=
          isNull_of_sigEq hsig hfrom.isNull
        have := isMethod_of_raw (CallSig.raw_of_sigEq hsig).symm hnull (hkind hfrom)
        rw [C.regular.fieldKinds m] at this
        cases this
      · have hd := (C.regular.methods ht f).1 hf
        refine ⟨f, hf, read_declaredIdentity hd ht hsig (fun x hx y hy => ?_) hread⟩
        exact C.regular.rows (Source.has_method ht.2 hd _ (MethodDef.signature_rows _ hx))
          (ho _ (List.mem_cons_of_mem _ (List.mem_append_left _ hy)))

/-- The methods of a type of the copy have been written for those of the type of the module. -/
theorem MethodsCopied.exact (hw : C.Faithful .null w)
    (ht : C.source.store.Owns C.source.image t) (hn : C.TypeWritten w level t n)
    (h : C.MethodsCopied w t n) :
    List.Forall₂ (C.MethodWritten w) (C.source.store.typeDef t).methods (w.store.typeDef n).methods := by
  refine StartsWith.exact h fun d hd => ?_
  have hin := hw.remembered.typeIn hn
  obtain ⟨-, hdecl, -⟩ := hw.ground.methods hin hd
  obtain ⟨id, e, he, hrow⟩ := (hw.listed.methods hin hd).resolve_left Row.noConfusion
  obtain ⟨hmethod, hs⟩ := hw.remembered.methods he
  obtain ⟨c, hc, hread⟩ := hmethod.source
  obtain ⟨type, sig, hfrom, -⟩ := hc.readFrom hread
  rw [hrow] at hs
  cases hs with
  | defined _ _ _ _ _ _ hren =>
      obtain ⟨r, hr, htype⟩ := token_of_declared hdecl (hren.gives hfrom)
      rw [hw.remembered.identity_eq hn] at hr
      obtain ⟨f, hf, hid⟩ := hmethod.mem_methods ht hr htype
      refine ⟨f, hf, fun c hc => ?_⟩
      obtain ⟨id', e', hid', he', hrow', -⟩ := hc
      obtain rfl := hid.unique hid' (.methodIdentity _ f) C.sound
      cases he.symm.trans he'
      cases hrow.symm.trans hrow'
      rfl

end Copy

end CilCatalog
