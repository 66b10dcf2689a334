import CilCatalog.Proofs.Live.Source
import CilCatalog.Proofs.Live.Store

/-!
# Stores that extend each other

A store extends another if every definition is still there and has what its identity is made of: the name and namespace of a type, the name and signature of a member, and what is around them.  The types of a module that is being written are layered, each made after the type around it, and so keep their identities (`definitionIdentity_extends`).
-/

namespace CilCatalog

open Live

namespace Live

/-! ### What identities are made of -/

/-- The part of a type definition that its identity is made of. -/
def TypeDef.head (d : TypeDef) : ImageId × Bytes × Bytes × Option TypeId :=
  (d.image, d.ns, d.name, d.declaring)

/-- The part of a field definition that its identity is made of. -/
def FieldDef.head (d : FieldDef) : Bytes × CallSig × Option TypeId :=
  (d.name, d.signature, d.declaring)

/-- The part of a method definition that its identity is made of. -/
def MethodDef.head (d : MethodDef) : Bytes × CallSig × Option TypeId :=
  (d.name, d.signature, d.declaring)

namespace Store

variable {σ σ' σ'' : Store}

/-- Every definition is still there, with the same head. -/
structure Extends (σ σ' : Store) : Prop where
  typesLe : σ.typeDefs.length ≤ σ'.typeDefs.length
  fieldsLe : σ.fieldDefs.length ≤ σ'.fieldDefs.length
  methodsLe : σ.methodDefs.length ≤ σ'.methodDefs.length
  types : ∀ t : TypeId, t.index < σ.typeDefs.length → (σ'.typeDef t).head = (σ.typeDef t).head
  fields : ∀ f : FieldId, f.index < σ.fieldDefs.length → (σ'.fieldDef f).head = (σ.fieldDef f).head
  methods : ∀ f : MethodId, f.index < σ.methodDefs.length →
    (σ'.methodDef f).head = (σ.methodDef f).head

theorem Extends.refl (σ : Store) : σ.Extends σ :=
  ⟨Nat.le_refl _, Nat.le_refl _, Nat.le_refl _, fun _ _ => rfl, fun _ _ => rfl, fun _ _ => rfl⟩

theorem Extends.trans (h : σ.Extends σ') (h' : σ'.Extends σ'') : σ.Extends σ'' where
  typesLe := Nat.le_trans h.typesLe h'.typesLe
  fieldsLe := Nat.le_trans h.fieldsLe h'.fieldsLe
  methodsLe := Nat.le_trans h.methodsLe h'.methodsLe
  types t ht := (h'.types t (Nat.lt_of_lt_of_le ht h.typesLe)).trans (h.types t ht)
  fields f hf := (h'.fields f (Nat.lt_of_lt_of_le hf h.fieldsLe)).trans (h.fields f hf)
  methods f hf := (h'.methods f (Nat.lt_of_lt_of_le hf h.methodsLe)).trans (h.methods f hf)

/-- A change of a type definition that leaves its head alone leaves all heads alone. -/
theorem head_modifyType {t : TypeId} {f : TypeDef → TypeDef} (hf : ∀ d, (f d).head = d.head)
    (u : TypeId) : ((σ.modifyType t f).typeDef u).head = (σ.typeDef u).head := by
  by_cases hu : u = t
  · subst hu
    by_cases hlt : u.index < σ.typeDefs.length
    · rw [typeDef_modifyType hlt, hf]
    · rw [typeDef_modifyType_of_le (Nat.not_lt.1 hlt)]
  · rw [typeDef_modifyType_of_ne hu]

/-! ### Layers -/

/-- A type from number `b` on. -/
def TypeIn (σ : Store) (b : Nat) (t : TypeId) : Prop := b ≤ t.index ∧ t.index < σ.typeDefs.length

/-- The types from number `b` on are of module `j`, and each is made after the type around it. -/
def Layered (σ : Store) (b : Nat) (j : ImageId) : Prop :=
  ∀ t, σ.TypeIn b t → (σ.typeDef t).image = j ∧
    ∀ o, (σ.typeDef t).declaring = some o → b ≤ o.index ∧ o.index < t.index

variable {b : Nat} {j : ImageId} {t o : TypeId}

theorem TypeIn.extends (h : σ.TypeIn b t) (he : σ.Extends σ') : σ'.TypeIn b t :=
  ⟨h.1, Nat.lt_of_lt_of_le h.2 he.typesLe⟩

theorem image_extends (h : t.index < σ.typeDefs.length) (he : σ.Extends σ') :
    (σ'.typeDef t).image = (σ.typeDef t).image := congrArg (·.1) (he.types t h)

theorem ns_extends (h : t.index < σ.typeDefs.length) (he : σ.Extends σ') :
    (σ'.typeDef t).ns = (σ.typeDef t).ns := congrArg (·.2.1) (he.types t h)

theorem typeName_extends (h : t.index < σ.typeDefs.length) (he : σ.Extends σ') :
    (σ'.typeDef t).name = (σ.typeDef t).name := congrArg (·.2.2.1) (he.types t h)

theorem declaring_extends (h : t.index < σ.typeDefs.length) (he : σ.Extends σ') :
    (σ'.typeDef t).declaring = (σ.typeDef t).declaring := congrArg (·.2.2.2) (he.types t h)

theorem fieldName_extends {f : FieldId} (h : f.index < σ.fieldDefs.length) (he : σ.Extends σ') :
    (σ'.fieldDef f).name = (σ.fieldDef f).name := congrArg (·.1) (he.fields f h)

theorem fieldSignature_extends {f : FieldId} (h : f.index < σ.fieldDefs.length)
    (he : σ.Extends σ') : (σ'.fieldDef f).signature = (σ.fieldDef f).signature :=
  congrArg (·.2.1) (he.fields f h)

theorem fieldDeclaring_extends {f : FieldId} (h : f.index < σ.fieldDefs.length)
    (he : σ.Extends σ') : (σ'.fieldDef f).declaring = (σ.fieldDef f).declaring :=
  congrArg (·.2.2) (he.fields f h)

theorem methodName_extends {f : MethodId} (h : f.index < σ.methodDefs.length) (he : σ.Extends σ') :
    (σ'.methodDef f).name = (σ.methodDef f).name := congrArg (·.1) (he.methods f h)

theorem methodSignature_extends {f : MethodId} (h : f.index < σ.methodDefs.length)
    (he : σ.Extends σ') : (σ'.methodDef f).signature = (σ.methodDef f).signature :=
  congrArg (·.2.1) (he.methods f h)

theorem methodDeclaring_extends {f : MethodId} (h : f.index < σ.methodDefs.length)
    (he : σ.Extends σ') : (σ'.methodDef f).declaring = (σ.methodDef f).declaring :=
  congrArg (·.2.2) (he.methods f h)

/-- Types that get smaller from the inside out end at an outermost one. -/
theorem rooted_of_descending {n : Nat} (hn : n ≤ σ.typeDefs.length)
    (h : ∀ t : TypeId, b ≤ t.index → t.index < n →
      ∀ o, (σ.typeDef t).declaring = some o → b ≤ o.index ∧ o.index < t.index)
    (hb : b ≤ t.index) (ht : t.index < n) : σ.Rooted t := by
  have top : ∀ k (t : TypeId), b ≤ t.index → t.index < n → t.index < k →
      (σ.typeDef ((σ.enclosingWithin k t).getLastD t)).declaring = none := by
    intro k
    induction k with
    | zero => exact fun _ _ _ hk => absurd hk (Nat.not_lt_zero _)
    | succ k ih =>
        intro t hb ht hk
        rw [enclosingWithin]
        cases ho : (σ.typeDef t).declaring with
        | none => exact ho
        | some o =>
            obtain ⟨hb', hlt⟩ := h t hb ht o ho
            have hlast : (o :: σ.enclosingWithin k o).getLastD t =
                (σ.enclosingWithin k o).getLastD o := by
              cases σ.enclosingWithin k o <;> rfl
            dsimp only
            rw [hlast]
            exact ih o hb' (Nat.lt_trans hlt ht) (by omega)
  exact top σ.typeDefs.length t hb ht (Nat.lt_of_lt_of_le ht hn)

theorem Layered.rooted (hl : σ.Layered b j) (ht : σ.TypeIn b t) : σ.Rooted t :=
  rooted_of_descending (Nat.le_refl _) (fun t hb ht => (hl t ⟨hb, ht⟩).2) ht.1 ht.2

end Store

end Live

/-- Types in layers keep their identities. -/
theorem definitionIdentity_extends {σ σ' : Store} {b : Nat} {j : ImageId} (hl : σ.Layered b j)
    (he : σ.Extends σ') {t : TypeId} (ht : σ.TypeIn b t) :
    Reading.definitionIdentity σ' t = Reading.definitionIdentity σ t := by
  have rooted : ∀ {t}, σ.TypeIn b t → σ'.Rooted t := fun {t} ht =>
    Store.rooted_of_descending he.typesLe (fun t hb ht o ho =>
      (hl t ⟨hb, ht⟩).2 o (by rwa [Store.declaring_extends ht he] at ho)) ht.1 ht.2
  obtain ⟨n, hn⟩ : ∃ n, t.index = n := ⟨_, rfl⟩
  induction n using Nat.strongRecOn generalizing t with
  | ind n ih =>
      have hname := Store.typeName_extends ht.2 he
      have hdecl := Store.declaring_extends ht.2 he
      cases ho : (σ.typeDef t).declaring with
      | none =>
          rw [definitionIdentity_top ho, definitionIdentity_top (hdecl.trans ho), hname,
            Store.ns_extends ht.2 he]
      | some o =>
          obtain ⟨hb, hlt⟩ := (hl t ht).2 o ho
          have hoIn : σ.TypeIn b o := ⟨hb, Nat.lt_trans hlt ht.2⟩
          rw [definitionIdentity_nested (hl.rooted ht) ho,
            definitionIdentity_nested (rooted ht) (hdecl.trans ho), hname,
            Store.typeName_extends hoIn.2 he, ih o.index (by omega) hoIn rfl]

end CilCatalog
