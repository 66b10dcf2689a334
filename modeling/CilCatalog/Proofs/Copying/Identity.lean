import CilCatalog.Proofs.Copying.Signature

/-!
# Identities of members

A member is told apart by its name, its declaring type and its signature.  What is written for these is read as what the identity has been read from (`memberIdentity_written`).
-/

namespace CilCatalog

open Live

/-- The identity of a member with the given declaring type. -/
def Reading.declaredIdentity (s : Store) (what : String) (name : Bytes) (d : Option TypeId)
    (sig : CallSig) : Reading MemberIdentity := do
  let t ← Reading.declaringType s what name d
  Reading.memberIdentity s name (.typeDef t) sig

namespace Copy

variable {C : Copy} {w w₁ w₂ : WriteState} {σ σ' : Store} {id : MemberIdentity} {α : Type}

/-! ### Where members come from -/

theorem FieldSource.steady {c : Reading MemberIdentity} (h : C.FieldSource c) :
    Steady C.source c := by
  cases h with
  | defined f => exact .fieldIdentity _ f
  | referred n name sig parent _ => exact .memberIdentity _ name parent sig

theorem MethodSource.steady {c : Reading MemberIdentity} (h : C.MethodSource c) :
    Steady C.source c := by
  cases h with
  | defined f => exact .methodIdentity _ f
  | referred n name sig parent _ => exact .memberIdentity _ name parent sig

/-- A reading that is done by another is followed by what follows that. -/
theorem Follows.of_imp {x x' y : Reading α} (h : C.Follows x' y)
    (hx : ∀ ρ a ρ', Gives x ρ a ρ' → Gives x' ρ a ρ') : C.Follows x y :=
  fun ρ a ρ' hi ho hg => h ρ a ρ' hi ho (hx ρ a ρ' hg)

theorem plain_of_has {rs : List Row} (h : C.source.Has rs) : C.source.Plain rs :=
  ⟨fun _ hm => C.regular.referred (h _ hm), fun _ _ hm => C.regular.assemblies (h _ hm)⟩

/-- The declaring type of a field and the rows of its signature are plain. -/
theorem plain_of_field {f : FieldId} {t : TypeId} (hd : (C.source.store.fieldDef f).declaring = some t)
    (hi : (C.source.store.typeDef t).image = C.source.image) :
    C.source.Plain (.typeDef t :: (C.source.store.fieldDef f).signature.rows) :=
  (plain_of_has fun r hr => Source.has_field hi hd r (FieldDef.signature_rows _ hr)).cons
    (C.regular.ofField hd)

theorem plain_of_method {f : MethodId} {t : TypeId}
    (hd : (C.source.store.methodDef f).declaring = some t)
    (hi : (C.source.store.typeDef t).image = C.source.image) :
    C.source.Plain (.typeDef t :: (C.source.store.methodDef f).signature.rows) :=
  (plain_of_has fun r hr => Source.has_method hi hd r (MethodDef.signature_rows _ hr)).cons
    (C.regular.ofMethod hd)

theorem readFrom_of_memberIdentity {name : Bytes} {type : Row} {sig : CallSig}
    (ht : C.source.Plain type.rows) (hs : C.source.Plain sig.rows)
    (h : Read C.source C.reader (Reading.memberIdentity C.source.store name type sig) id) :
    id.name = name ∧ C.ReadFrom id type sig := by
  obtain ⟨t, htree, h⟩ := h.of_bind (Steady.typeTree _ type) fun _ =>
    (Steady.callSigTree _ sig).bind fun _ => .pure _
  obtain ⟨c, hc, rfl⟩ := h.of_bind_pure (Steady.callSigTree _ sig)
  exact ⟨rfl, ht, hs, htree, hc⟩

/-- A member with a declaring type is read from that type. -/
theorem readFrom_of_declaredIdentity {what : String} {name : Bytes} {d : Option TypeId} {sig : CallSig}
    (hs : ∀ t, d = some t → (C.source.store.typeDef t).image = C.source.image →
      C.source.Plain (.typeDef t :: sig.rows))
    (h : Read C.source C.reader (Reading.declaredIdentity C.source.store what name d sig) id) :
    ∃ t, d = some t ∧ (C.source.store.typeDef t).image = C.source.image ∧ id.name = name ∧
      C.ReadFrom id (.typeDef t) sig ∧
      ∀ y, C.Follows (Reading.memberIdentity C.source.store id.name (.typeDef t) sig) y →
        C.Follows (Reading.declaredIdentity C.source.store what name d sig) y := by
  obtain ⟨t, ht, hid⟩ := h.of_bind (Steady.declaringType _ _ _ _) fun _ =>
    Steady.memberIdentity _ _ _ _
  obtain ⟨hd, hi⟩ := ht.of_declaringType
  have hplain := hs t hd hi
  have htype : C.source.Plain (Row.typeDef t).rows :=
    hplain.mono (List.cons_subset_cons _ (List.nil_subset _))
  obtain ⟨hname, hfrom⟩ := readFrom_of_memberIdentity htype hplain.tail hid
  refine ⟨t, hd, hi, hname, hfrom, fun y hy => hy.of_imp fun ρ a ρ' hg => ?_⟩
  obtain ⟨t', ρ₁, ht', hg⟩ := gives_bind.1 hg
  obtain ⟨hd', -, hρ⟩ := gives_declaringType.1 ht'
  subst hρ
  cases hd.symm.trans hd'
  rw [hname]
  exact hg

theorem FieldSource.readFrom {c : Reading MemberIdentity} (h : C.FieldSource c)
    (hr : Read C.source C.reader c id) : ∃ type sig, C.ReadFrom id type sig ∧
      ∀ y, C.Follows (Reading.memberIdentity C.source.store id.name type sig) y → C.Follows c y := by
  cases h with
  | defined f =>
      obtain ⟨t, -, -, -, hfrom, hy⟩ :=
        readFrom_of_declaredIdentity (fun _ => plain_of_field) hr
      exact ⟨_, _, hfrom, hy⟩
  | referred n name sig parent ho =>
      have hplain := (plain_of_has ho).tail
      obtain ⟨hname, hfrom⟩ := readFrom_of_memberIdentity hplain.right hplain.left hr
      exact ⟨_, _, hfrom, fun y hy => by rwa [hname] at hy⟩

theorem MethodSource.readFrom {c : Reading MemberIdentity} (h : C.MethodSource c)
    (hr : Read C.source C.reader c id) : ∃ type sig, C.ReadFrom id type sig ∧
      ∀ y, C.Follows (Reading.memberIdentity C.source.store id.name type sig) y → C.Follows c y := by
  cases h with
  | defined f =>
      obtain ⟨t, -, -, -, hfrom, hy⟩ :=
        readFrom_of_declaredIdentity (fun _ => plain_of_method) hr
      exact ⟨_, _, hfrom, hy⟩
  | referred n name sig parent ho =>
      have hplain := (plain_of_has ho).tail
      obtain ⟨hname, hfrom⟩ := readFrom_of_memberIdentity hplain.right hplain.left hr
      exact ⟨_, _, hfrom, fun y hy => by rwa [hname] at hy⟩

/-- What renders an identity follows every reading of it. -/
theorem Renders.follows {y : Store → Reading MemberIdentity} {x : Reading MemberIdentity}
    (h : C.Renders σ id y) (hx : ∃ type sig, C.ReadFrom id type sig ∧
      ∀ y, C.Follows (Reading.memberIdentity C.source.store id.name type sig) y → C.Follows x y) :
    C.Echo σ x y := by
  obtain ⟨type, sig, hfrom, hy⟩ := hx
  exact fun σ' he => hy _ (h type sig hfrom σ' he)

/-- What renders an identity is read as it. -/
theorem Renders.gives {y : Store → Reading MemberIdentity} {type : Row} {sig : CallSig}
    (h : C.Renders σ id y) (hfrom : C.ReadFrom id type sig) :
    Gives (y σ) (C.reader.onto C.image) id (C.reader.onto C.image) := by
  have hid : Gives (Reading.memberIdentity C.source.store id.name type sig) C.reader id C.reader :=
    gives_bind.2 ⟨_, _, hfrom.type.gives (Steady.typeTree _ type) C.sound,
      gives_bind.2 ⟨_, _, hfrom.sig.gives (Steady.callSigTree _ sig) C.sound,
        gives_pure.2 ⟨rfl, rfl⟩⟩⟩
  exact (h type sig hfrom σ (.refl σ) _ _ _ C.sound.image C.sound.options hid).2.2

/-! ### Members of the copy -/

/-- A member of the copy is read from its declaring type. -/
theorem Follows.declaredIdentity {x : Reading MemberIdentity} {what : String} {name : Bytes}
    {t : TypeId} {sig : CallSig} (ht : (σ.typeDef t).image = C.image)
    (h : C.Follows x (Reading.memberIdentity σ name (.typeDef t) sig)) :
    C.Follows x (Reading.declaredIdentity σ what name (some t) sig) := by
  intro ρ a ρ' hi ho hg
  obtain ⟨hi', ho', hg'⟩ := h ρ a ρ' hi ho hg
  exact ⟨hi', ho', gives_bind.2 ⟨t, _, gives_declaringType.2 ⟨rfl, ht, rfl⟩, hg'⟩⟩

theorem IsParent.extends {r : Row} (h : C.IsParent σ r) (he : σ.Extends σ') : C.IsParent σ' r :=
  ⟨h.isType, fun hr => (h.inside hr).extends he⟩

/-- What is written for an identity renders it. -/
theorem memberIdentity_written {type : Row} {sig : CallSig} {parent : Row} {sig' : CallSig}
    (hfrom : C.ReadFrom id type sig) (hw : C.Faithful .null w)
    (hp : Gives (Writing.rowOfTree C.catalog id.type) w parent w₁)
    (hs : Gives (Writing.callSigOf C.catalog id.signature) w₁ sig' w₂) :
    C.Faithful .null w₂ ∧ w.TypeStep w₂ ∧ C.Made w₂.store w.store.nextRow sig'.rows ∧
      C.IsParent w₂.store parent ∧ sig'.raw = sig.raw ∧
      C.Renders w₂.store id (Reading.memberIdentity · id.name parent sig') := by
  obtain ⟨first, hparent⟩ := rowOfTree_puts type hfrom.plainType hfrom.type hw hp
  obtain ⟨second, hraw⟩ := callSigOf_puts sig hfrom.plainSig hfrom.sig first.faithful hs
  refine ⟨second.faithful, first.step.trans second.step, second.second first.step,
    hparent.extends second.step.store, hraw, fun type sig hfrom => ?_⟩
  obtain ⟨first, -⟩ := rowOfTree_puts type hfrom.plainType hfrom.type hw hp
  exact (first.bind (fun hw₁ _ =>
    (callSigOf_puts sig hfrom.plainSig hfrom.sig hw₁ hs).1.map) id.type).echo

/-! ### Signatures that are told apart -/

/-- A signature that has just been made is told apart from one that was there. -/
theorem tellApart_of_made {rs rs' : List Row} (h : C.Made σ 0 rs) (hg : C.Ground σ')
    (ha : (σ.image C.image).assemblyRefs ⊆ (σ'.image C.image).assemblyRefs)
    (ht : (σ.image C.image).typeRefs ⊆ (σ'.image C.image).typeRefs)
    (h' : C.Made σ' σ.nextRow rs') : TellApart rs rs' := by
  have kinds : ∀ {x : Row}, x ∈ C.refs σ' → (∃ n a, x = .assemblyRef n a) ∨
      ∃ n ns name scope, x = .typeRef n ns name scope := by
    intro x hx
    rcases List.mem_append.1 hx with hx | hx
    · obtain ⟨n, a, rfl, -⟩ := hg.tables.assemblies x hx
      exact .inl ⟨n, a, rfl⟩
    · obtain ⟨n, ns, name, scope, rfl, -⟩ := hg.tables.types x hx
      exact .inr ⟨n, ns, name, scope, rfl⟩
  intro r hr r' hr' hsame
  rcases h r hr with ⟨⟨t⟩, rfl⟩ | hm | ⟨n, t, rfl, -, hn⟩
  · rcases h' r' hr' with ⟨⟨t'⟩, rfl⟩ | hm' | ⟨n', t', rfl, hn', -⟩
    · simpa [Row.same, Row.key?] using hsame
    · obtain ⟨n, a, rfl⟩ | ⟨n, ns, name, scope, rfl⟩ := kinds hm' <;> simp [Row.same, Row.key?] at hsame
    · simp [Row.same, Row.key?] at hsame
  · have hm : r ∈ C.refs σ' := by
      rcases List.mem_append.1 hm with hm | hm
      · exact List.mem_append_left _ (ha hm)
      · exact List.mem_append_right _ (ht hm)
    rcases h' r' hr' with ⟨t', rfl⟩ | hm' | ⟨n', t', rfl, -, -⟩
    · obtain ⟨n, a, rfl⟩ | ⟨n, ns, name, scope, rfl⟩ := kinds hm <;> simp [Row.same, Row.key?] at hsame
    · exact hg.tables.apart r hm r' hm' hsame
    · obtain ⟨n, a, rfl⟩ | ⟨n, ns, name, scope, rfl⟩ := kinds hm <;> simp [Row.same, Row.key?] at hsame
  · rcases h' r' hr' with ⟨t', rfl⟩ | hm' | ⟨n', t', rfl, hn', -⟩
    · simp [Row.same, Row.key?] at hsame
    · obtain ⟨n, a, rfl⟩ | ⟨n, ns, name, scope, rfl⟩ := kinds hm' <;> simp [Row.same, Row.key?] at hsame
    · simp [Row.same, Row.key?] at hsame
      omega

end Copy

end CilCatalog
