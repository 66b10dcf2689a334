import CilCatalog.Proofs.FullComparison

/-!
# The reference comparison is a lawful key

Entities are filed under their identities, in tables that ask two things of a key: that equality is an equivalence, and that equal keys have one hash (`LawfulKey`).  By reference an absent list of enclosing names is as good as an empty one, so equality is not that of values, and the hash reads the same lists in another way.  Both see an identity only through `TypeIdentity.explicit`, which spells an absent list out: two identities are equal if these forms are the same value, and the hash is that of this form.  Transitivity across lists that are absent, empty or neither needs no cases then, and the hashes agree.

The comparison in full is finer, since it looks at the identities too.
-/

namespace CilCatalog

/-- The identity with an empty list of enclosing names in place of an absent one. -/
def TypeIdentity.explicit (t : TypeIdentity) : TypeIdentity :=
  { t with enclosing := some (t.enclosing.getD []) }

/-- What a table asks of its keys: an equality that is an equivalence, and one hash for equal keys. -/
structure LawfulKey {κ : Type} (eq : κ → κ → Bool) (hash : κ → UInt64) : Prop where
  equivalence : Equivalence fun a b => eq a b = true
  hash_eq : ∀ a b, eq a b = true → hash a = hash b

namespace LawfulKey

variable {κ ι : Type} {eq : κ → κ → Bool} {hash : κ → UInt64}

/-- Keys that are equal if they have the same form, and whose hash only sees that form. -/
theorem of_form {form : κ → ι} {formHash : ι → UInt64} (he : ∀ a b, eq a b = true ↔ form a = form b)
    (hh : ∀ a, hash a = formHash (form a)) : LawfulKey eq hash where
  equivalence :=
    { refl := fun a => (he a a).2 rfl
      symm := fun {a b} h => (he b a).2 ((he a b).1 h).symm
      trans := fun {a b d} h h' => (he a d).2 (((he a b).1 h).trans ((he b d).1 h')) }
  hash_eq := by
    intro a b h
    rw [hh a, hh b, (he a b).1 h]

/-- Whatever has a key is filed under it as lawfully as the key itself. -/
theorem comap (h : LawfulKey eq hash) (key : ι → κ) :
    LawfulKey (fun x y => eq (key x) (key y)) (fun x => hash (key x)) where
  equivalence :=
    { refl := fun x => h.equivalence.refl (key x)
      symm := fun e => h.equivalence.symm e
      trans := fun e e' => h.equivalence.trans e e' }
  hash_eq := fun x y e => h.hash_eq (key x) (key y) e

end LawfulKey

namespace Comparison

/-! ### Identities by reference -/

/-- By reference, lists are equal if they are so once an absent one is taken for empty. -/
theorem reference_optionalList {α : Type} {eq : α → α → Bool} (h : ∀ a b, eq a b = true ↔ a = b)
    {o p : Option (List α)} : reference.optionalList eq o p = true ↔ o.getD [] = p.getD [] := by
  cases o with
  | none => cases p with
    | none => simp [optionalList]
    | some bs =>
        change bs.isEmpty = true ↔ [] = bs
        rw [List.isEmpty_iff, eq_comm]
  | some as => cases p with
    | none => simp [optionalList, reference]
    | some bs => simp [optionalList, list_eq_true h]

theorem reference_typeIdentity {a b : TypeIdentity} :
    reference.typeIdentity a b = true ↔ a.name = b.name ∧ a.ns = b.ns ∧ a.assembly = b.assembly ∧
      a.enclosing.getD [] = b.enclosing.getD [] := by
  rw [typeIdentity_eq_true, reference_optionalList fun _ _ => beq_iff_eq]

theorem reference_typeIdentity_explicit (a b : TypeIdentity) :
    reference.typeIdentity a b = true ↔ a.explicit = b.explicit := by
  rw [reference_typeIdentity, TypeIdentity.explicit, TypeIdentity.explicit, TypeIdentity.mk.injEq,
    Option.some.injEq]

end Comparison

/-! ### Signature trees -/

namespace SigTree

/-- What a node holds itself besides its code: the token or the number of a leaf. -/
def held : SigTree → Token
  | token t => t
  | int32 v => .index v
  | _       => .index 0

/-- What a node is made of: its kind, what it holds itself, its code and its arguments. -/
def parts (t : SigTree) : NodeKind × Token × UInt8 × List SigTree := (t.kind, t.held, t.code, t.args)

theorem operand?_node (k : OperandKind) : k.node.operand? = some k := by
  cases k <;> rfl

/-- The kind of an operand node says what the operand names. -/
theorem eq_node_iff {k : OperandKind} {n : NodeKind} : n = k.node ↔ n.operand? = some k := by
  cases k <;> cases n <;> decide

/-- Nodes that are made of the same are equal. -/
theorem parts_inj {a b : SigTree} : a.parts = b.parts ↔ a = b := by
  constructor
  · intro h
    simp only [parts, Prod.mk.injEq] at h
    obtain ⟨hk, hh, hc, ha⟩ := h
    cases a with
    | inline k o =>
        -- no other constructor has the kind of an operand node
        have operand := eq_node_iff.1 hk.symm
        cases b with
        | inline l p => simp_all [kind, args, operand?_node]
        | _ => exact nomatch operand
    | _ => cases b <;> simp_all [kind, held, code, args, eq_node_iff, NodeKind.operand?]
  · rintro rfl
    rfl

end SigTree

namespace IdentityHash

variable (string : Bytes → UInt64)

/-- The hash of a node with the given parts. -/
def parts (p : NodeKind × Token × UInt8 × List SigTree) : UInt64 :=
  p.2.2.2.foldl (fun h a => combine h (tree string a))
    (combine (combine p.1.code.toUInt64 (token string p.2.1)) p.2.2.1.toUInt64)

theorem trees_eq_foldl (h : UInt64) (as : List SigTree) :
    trees string h as = as.foldl (fun h a => combine h (tree string a)) h := by
  induction as generalizing h with
  | nil => rfl
  | cons a as ih => exact ih (combine h (tree string a))

/-- Every node is hashed in the same way, its arguments one after the other. -/
theorem tree_eq_parts (t : SigTree) : tree string t = parts string t.parts := by
  cases t with
  | token t => rfl
  | typeSig c as => exact trees_eq_foldl string _ as
  | callSig c as => exact trees_eq_foldl string _ as
  | int32 v => rfl
  | methodSpec m i => rfl
  | inline k o => rfl

end IdentityHash

namespace Comparison

/-! ### Hashes -/

variable (string : Bytes → UInt64)

theorem lawful_tree : LawfulKey (fun a b : SigTree => a == b) (IdentityHash.tree string) :=
  .of_form (fun _ _ => beq_iff_eq.trans SigTree.parts_inj.symm) (IdentityHash.tree_eq_parts string)

/-- The hash of a type's identity is that of its explicit form: no names are hashed either way. -/
theorem hash_explicit (t : TypeIdentity) :
    IdentityHash.typeIdentity string t = IdentityHash.typeIdentity string t.explicit := rfl

theorem lawful_typeIdentity : LawfulKey reference.typeIdentity (IdentityHash.typeIdentity string) :=
  .of_form reference_typeIdentity_explicit (hash_explicit string)

theorem lawful_memberIdentity :
    LawfulKey reference.memberIdentity (IdentityHash.memberIdentity string) :=
  .of_form (fun _ _ => reference.memberIdentity_eq_true) fun _ => rfl

/-! ### Entities -/

section Entities

variable {ι δ : Type} {id : ι → ι → Bool} {data : δ → δ → Bool} {e f : Entity ι δ}

/-- By reference, the shape of an entity and its data do not matter. -/
theorem reference_entity (id : ι → ι → Bool) (data : δ → δ → Bool) :
    reference.entity id data = fun e f => id e.identity f.identity := by
  funext e f
  cases e with
  | reference i => cases f <;> simp [entity, Entity.identity, reference]
  | definition i x => cases f <;> simp [entity, Entity.identity, reference]

/-- Entities that are equal in full have identities that are. -/
theorem identity_of_full (h : full.entity id data e f = true) : id e.identity f.identity = true := by
  cases e with
  | reference i => cases f with
    | reference j => exact h
    | definition j y => exact nomatch h
  | definition i x => cases f with
    | reference j => exact nomatch h
    | definition j y => exact (Bool.and_eq_true_iff.1 h).1

end Entities

theorem reference_of_full_type {a b : TypeEntity} (h : full.types a b = true) :
    reference.types a b = true := by
  have e := full_typeIdentity.1 (identity_of_full h)
  rw [types, reference_entity]
  simp only [e]
  exact reference.typeIdentity_self _

theorem reference_of_full_member {δ : Type} {data data' : δ → δ → Bool}
    {a b : Entity MemberIdentity δ} (h : full.entity full.memberIdentity data a b = true) :
    reference.entity reference.memberIdentity data' a b = true := by
  have e := full.memberIdentity_eq_true.1 (identity_of_full h)
  rw [reference_entity]
  simp only [e]
  exact reference.memberIdentity_self _

theorem lawful_types :
    LawfulKey reference.types fun e => IdentityHash.typeIdentity string e.identity := by
  rw [types, reference_entity]
  exact (lawful_typeIdentity string).comap Entity.identity

theorem lawful_members {δ : Type} (data : δ → δ → Bool) :
    LawfulKey (reference.entity reference.memberIdentity data) fun e =>
      IdentityHash.memberIdentity string e.identity := by
  rw [reference_entity]
  exact (lawful_memberIdentity string).comap Entity.identity

/-- The comparison by reference and the hash of identities make a lawful key, whatever byte strings hash to: of signature trees, of the identities of types and of members, and of types, fields and methods.  An absent list of enclosing names is an empty one.  What is equal in full is so by reference, and has one hash. -/
theorem reference_is_lawful_key :
    (∀ a b : TypeIdentity, reference.typeIdentity a b = true ↔ a.name = b.name ∧ a.ns = b.ns ∧
      a.assembly = b.assembly ∧ a.enclosing.getD [] = b.enclosing.getD []) ∧
    ∀ string : Bytes → UInt64,
      LawfulKey (fun a b : SigTree => a == b) (IdentityHash.tree string) ∧
      LawfulKey reference.typeIdentity (IdentityHash.typeIdentity string) ∧
      LawfulKey reference.memberIdentity (IdentityHash.memberIdentity string) ∧
      LawfulKey reference.types (fun e => IdentityHash.typeIdentity string e.identity) ∧
      LawfulKey reference.fields (fun e => IdentityHash.memberIdentity string e.identity) ∧
      LawfulKey reference.methods (fun e => IdentityHash.memberIdentity string e.identity) ∧
      (∀ a b : TypeEntity, full.types a b = true → reference.types a b = true ∧
        IdentityHash.typeIdentity string a.identity = IdentityHash.typeIdentity string b.identity) ∧
      (∀ a b : FieldEntity, full.fields a b = true → reference.fields a b = true ∧
        IdentityHash.memberIdentity string a.identity =
          IdentityHash.memberIdentity string b.identity) ∧
      (∀ a b : MethodEntity, full.methods a b = true → reference.methods a b = true ∧
        IdentityHash.memberIdentity string a.identity =
          IdentityHash.memberIdentity string b.identity) := by
  refine ⟨fun _ _ => reference_typeIdentity, fun string => ?_⟩
  have types := lawful_types string
  have fields : LawfulKey reference.fields _ := lawful_members string reference.fieldData
  have methods : LawfulKey reference.methods _ := lawful_members string reference.methodData
  refine ⟨lawful_tree string, lawful_typeIdentity string, lawful_memberIdentity string, types, fields,
    methods, fun a b h => ?_, fun a b h => ?_, fun a b h => ?_⟩
  · have same := reference_of_full_type h
    exact ⟨same, types.hash_eq a b same⟩
  · have same : reference.fields a b = true := reference_of_full_member h
    exact ⟨same, fields.hash_eq a b same⟩
  · have same : reference.methods a b = true := reference_of_full_member h
    exact ⟨same, methods.hash_eq a b same⟩

/-- A reference to a type and its definition, which say in two ways that nothing encloses it. -/
theorem reference_is_lawful_key_bolt :
    reference.types (.reference ⟨"Bolt", "", none, none⟩)
        (.definition ⟨"Bolt", "", none, some []⟩ {}) = true ∧
      IdentityHash.typeIdentity (fun s => s.length.toUInt64) ⟨"Bolt", "", none, none⟩ =
        IdentityHash.typeIdentity (fun s => s.length.toUInt64) ⟨"Bolt", "", none, some []⟩ := by
  have same : reference.types (.reference ⟨"Bolt", "", none, none⟩)
      (.definition ⟨"Bolt", "", none, some []⟩ {}) = true := by decide
  obtain ⟨-, -, -, types, -⟩ := reference_is_lawful_key.2 fun s => s.length.toUInt64
  have hashes := types.hash_eq _ _ same
  exact ⟨same, hashes⟩

end Comparison

end CilCatalog
