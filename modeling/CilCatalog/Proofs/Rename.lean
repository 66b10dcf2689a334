import CilCatalog.Proofs.Uses

/-!
# Tokens by other tokens

`rename f` replaces the tokens of an entity, each by what `f` has for it and for the kind of entity that it stands for (`uses`).  Everything else stays.

* `SigTree.rename_inj`: trees that are renamed alike are equal, if tokens that are renamed alike are.
-/

namespace CilCatalog

/-- What the tokens of each kind are replaced by. -/
abbrev Renaming := EntityKind → Token → Token

variable (f : Renaming)

/-! ### Trees -/

mutual

/-- The tree that stands for an entity of kind `k`, with its tokens replaced. -/
def SigTree.rename (k : EntityKind) : SigTree → SigTree
  | .token t        => .token (f k t)
  | .typeSig c as   => .typeSig c (SigTree.renameAll as)
  | .callSig c as   => .callSig c (SigTree.renameAll as)
  | .int32 n        => .int32 n
  | .methodSpec m i => .methodSpec (m.rename .method) (i.rename .type)
  | .inline o t     => .inline o (t.rename o.entity)

def SigTree.renameAll : List SigTree → List SigTree
  | []      => []
  | a :: as => a.rename .type :: SigTree.renameAll as

end

@[simp] theorem SigTree.renameAll_eq_map (as : List SigTree) :
    SigTree.renameAll f as = as.map (SigTree.rename f .type) := by
  induction as with
  | nil => rw [SigTree.renameAll, List.map_nil]
  | cons a as ih => rw [SigTree.renameAll, ih, List.map_cons]

/-! ### Parts of definitions -/

def CustomAttribute.rename (a : CustomAttribute) : CustomAttribute :=
  { a with constructor := f .method a.constructor }

def GenericParameter.rename (p : GenericParameter) : GenericParameter :=
  { p with constraints := p.constraints.map (·.map (SigTree.rename f .type)) }

/-- Custom attributes that may be absent. -/
def renameAttributes (as : Option (List CustomAttribute)) : Option (List CustomAttribute) :=
  as.map (·.map (CustomAttribute.rename f))

/-- Generic parameters that may be absent. -/
def renameParameters (ps : Option (List GenericParameter)) : Option (List GenericParameter) :=
  ps.map (·.map (GenericParameter.rename f))

def Property.rename (p : Property) : Property :=
  { p with
    signature := p.signature.rename f .type
    getMethod := p.getMethod.map (f .method)
    setMethod := p.setMethod.map (f .method)
    customAttributes := renameAttributes f p.customAttributes }

def Event.rename (e : Event) : Event :=
  { e with
    type := e.type.rename f .type
    addMethod := e.addMethod.map (f .method)
    removeMethod := e.removeMethod.map (f .method)
    invokeMethod := e.invokeMethod.map (f .method)
    customAttributes := renameAttributes f e.customAttributes }

def Parameter.rename (p : Parameter) : Parameter :=
  { p with customAttributes := renameAttributes f p.customAttributes }

def Operand.rename : Operand → Operand
  | tree t => tree (t.rename f .type)
  | o      => o

def Instruction.rename (i : Instruction) : Instruction :=
  { i with operand := i.operand.map (Operand.rename f) }

def ExceptionHandler.rename (h : ExceptionHandler) : ExceptionHandler :=
  { h with catchType := h.catchType.map (SigTree.rename f .type) }

def MethodBody.rename (b : MethodBody) : MethodBody :=
  { b with
    instructions := b.instructions.map (Instruction.rename f)
    handlers := b.handlers.map (ExceptionHandler.rename f)
    locals := b.locals.map (SigTree.rename f .type) }

/-! ### Entities -/

def MemberIdentity.rename (m : MemberIdentity) : MemberIdentity :=
  { m with type := m.type.rename f .type, signature := m.signature.rename f .type }

def TypeData.rename (d : TypeData) : TypeData :=
  { d with
    baseType := d.baseType.map (SigTree.rename f .type)
    interfaces := d.interfaces.map (·.map (SigTree.rename f .type))
    genericParameters := renameParameters f d.genericParameters
    customAttributes := renameAttributes f d.customAttributes
    nestedTypes := d.nestedTypes.map (·.map (f .type))
    fields := d.fields.map (·.map (f .field))
    methods := d.methods.map (·.map (f .method))
    properties := d.properties.map (·.map (Property.rename f))
    events := d.events.map (·.map (Event.rename f)) }

def FieldData.rename (d : FieldData) : FieldData :=
  { d with customAttributes := renameAttributes f d.customAttributes }

def MethodData.rename (d : MethodData) : MethodData :=
  { d with
    parameters := d.parameters.map (Parameter.rename f)
    body := d.body.map (MethodBody.rename f)
    overrides := d.overrides.map (·.map (f .method))
    genericParameters := renameParameters f d.genericParameters
    customAttributes := renameAttributes f d.customAttributes }

/-- An entity with its identity and its data changed. -/
def Entity.map {ι δ : Type} (identity : ι → ι) (data : δ → δ) : Entity ι δ → Entity ι δ
  | reference id    => reference (identity id)
  | definition id d => definition (identity id) (data d)

section Entity

variable {ι δ : Type} {identity : ι → ι} {data : δ → δ}

@[simp] theorem Entity.identity_map (e : Entity ι δ) :
    (e.map identity data).identity = identity e.identity := by
  cases e <;> rfl

@[simp] theorem Entity.data?_map (e : Entity ι δ) :
    (e.map identity data).data? = e.data?.map data := by
  cases e <;> rfl

end Entity

/-- The identity of a type has no tokens. -/
def TypeEntity.rename (e : TypeEntity) : TypeEntity := e.map id (TypeData.rename f)

def FieldEntity.rename (e : FieldEntity) : FieldEntity :=
  e.map (MemberIdentity.rename f) (FieldData.rename f)

def MethodEntity.rename (e : MethodEntity) : MethodEntity :=
  e.map (MemberIdentity.rename f) (MethodData.rename f)

/-! ### Tokens that are told apart -/

section Inj

variable {f} {P : Use → Prop}

mutual

/-- If no two of the tokens that satisfy `P` are replaced by the same, trees with such tokens can be told apart afterwards. -/
theorem SigTree.rename_inj (hf : ∀ k {t t'}, P ⟨k, t⟩ → P ⟨k, t'⟩ → f k t = f k t' → t = t') :
    ∀ {k : EntityKind} (a b : SigTree), (∀ u ∈ a.uses k, P u) → (∀ u ∈ b.uses k, P u) →
      a.rename f k = b.rename f k → a = b
  | k, .token t, b, ha, hb, h => by
      cases b with
      | token t' =>
          rw [SigTree.rename, SigTree.rename, SigTree.token.injEq] at h
          rw [SigTree.uses, Token.uses, List.forall_mem_singleton] at ha hb
          rw [hf k ha hb h]
      | _ => simp [SigTree.rename] at h
  | k, .typeSig c as, b, ha, hb, h => by
      cases b with
      | typeSig c' bs =>
          rw [SigTree.rename, SigTree.rename, SigTree.typeSig.injEq] at h
          rw [SigTree.uses] at ha hb
          rw [h.1, SigTree.renameAll_inj hf as bs ha hb h.2]
      | _ => simp [SigTree.rename] at h
  | k, .callSig c as, b, ha, hb, h => by
      cases b with
      | callSig c' bs =>
          rw [SigTree.rename, SigTree.rename, SigTree.callSig.injEq] at h
          rw [SigTree.uses] at ha hb
          rw [h.1, SigTree.renameAll_inj hf as bs ha hb h.2]
      | _ => simp [SigTree.rename] at h
  | k, .int32 n, b, ha, hb, h => by
      cases b with
      | int32 n' => simpa [SigTree.rename] using h
      | _ => simp [SigTree.rename] at h
  | k, .methodSpec m i, b, ha, hb, h => by
      cases b with
      | methodSpec m' i' =>
          rw [SigTree.rename, SigTree.rename, SigTree.methodSpec.injEq] at h
          rw [SigTree.uses, List.forall_mem_append] at ha hb
          rw [SigTree.rename_inj hf m m' ha.1 hb.1 h.1, SigTree.rename_inj hf i i' ha.2 hb.2 h.2]
      | _ => simp [SigTree.rename] at h
  | k, .inline o a, b, ha, hb, h => by
      cases b with
      | inline o' b =>
          rw [SigTree.rename, SigTree.rename, SigTree.inline.injEq] at h
          obtain ⟨rfl, h⟩ := h
          rw [SigTree.uses] at ha hb
          rw [SigTree.rename_inj hf a b ha hb h]
      | _ => simp [SigTree.rename] at h

theorem SigTree.renameAll_inj
    (hf : ∀ k {t t'}, P ⟨k, t⟩ → P ⟨k, t'⟩ → f k t = f k t' → t = t') :
    ∀ (as bs : List SigTree), (∀ u ∈ SigTree.usesOfAll as, P u) →
      (∀ u ∈ SigTree.usesOfAll bs, P u) → SigTree.renameAll f as = SigTree.renameAll f bs → as = bs
  | [], bs, _, _, h => by
      cases bs with
      | nil => rfl
      | cons b bs => simp [SigTree.renameAll] at h
  | a :: as, bs, ha, hb, h => by
      cases bs with
      | nil => simp [SigTree.renameAll] at h
      | cons b bs =>
          rw [SigTree.renameAll, SigTree.renameAll, List.cons.injEq] at h
          rw [SigTree.usesOfAll, List.forall_mem_append] at ha hb
          rw [SigTree.rename_inj hf a b ha.1 hb.1 h.1, SigTree.renameAll_inj hf as bs ha.2 hb.2 h.2]

end

theorem MemberIdentity.rename_inj (hf : ∀ k {t t'}, P ⟨k, t⟩ → P ⟨k, t'⟩ → f k t = f k t' → t = t')
    {a b : MemberIdentity} (ha : ∀ u ∈ a.uses, P u) (hb : ∀ u ∈ b.uses, P u)
    (h : a.rename f = b.rename f) : a = b := by
  obtain ⟨n, t, s⟩ := a
  obtain ⟨n', t', s'⟩ := b
  rw [MemberIdentity.rename, MemberIdentity.rename, MemberIdentity.mk.injEq] at h
  rw [MemberIdentity.uses, List.forall_mem_append] at ha hb
  obtain ⟨rfl, ht, hs⟩ := h
  rw [SigTree.rename_inj hf t t' ha.1 hb.1 ht, SigTree.rename_inj hf s s' ha.2 hb.2 hs]

end Inj

end CilCatalog
