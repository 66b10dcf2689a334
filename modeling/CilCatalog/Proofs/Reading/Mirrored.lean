import CilCatalog.Proofs.Reading.Mirror
import CilCatalog.Proofs.Reading.Orderly

/-!
# Names and positions

Every function that reads does the same for the two kinds of token.  There is one lemma for each of them, which says how what one reader gives differs from what the other does.

* `Reader.Request.kind`, `Reader.Answer.rename`: what answers are made of.
* `Mirrored.serve`: two readers that are like each other serve a request alike.
* `Reader.numbered`: whatever two readers of a module are asked for, as long as they do not refuse, the one with indices has recorded what the other has, with the positions of names in place of the names.
-/

namespace CilCatalog

open Live

/-! ### What is put together -/

attribute [simp] SigTree.rename

section Rename

variable (f : Renaming)

@[simp] theorem SigTree.rename_ofElement (k : EntityKind) (e : ElementType) (as : List SigTree) :
    (SigTree.ofElement e as).rename f k = .ofElement e (as.map (SigTree.rename f .type)) := by
  rw [SigTree.ofElement, SigTree.rename, SigTree.renameAll_eq_map]
  rfl

@[simp] theorem SigTree.rename_ofConvention (k : EntityKind) (c : CallingConvention)
    (as : List SigTree) :
    (SigTree.ofConvention c as).rename f k = .ofConvention c (as.map (SigTree.rename f .type)) := by
  rw [SigTree.ofConvention, SigTree.rename, SigTree.renameAll_eq_map]
  rfl

@[simp] theorem rename_lengthTree {α : Type} (k : EntityKind) (as : List α) :
    (Reading.lengthTree as).rename f k = Reading.lengthTree as := by
  rw [Reading.lengthTree, SigTree.rename]

@[simp] theorem lengthTree_map {α β : Type} (g : α → β) (as : List α) :
    Reading.lengthTree (as.map g) = Reading.lengthTree as := by
  rw [Reading.lengthTree, List.length_map, Reading.lengthTree]

@[simp] theorem rename_flagsTree (k : EntityKind) (raw : UInt8) :
    (Reading.flagsTree raw).rename f k = Reading.flagsTree raw := by
  rw [Reading.flagsTree, SigTree.rename]

@[simp] theorem map_rename_genericTrees (raw : UInt8) (n : UInt32) :
    (Reading.genericTrees raw n).map (SigTree.rename f .type) = Reading.genericTrees raw n := by
  unfold Reading.genericTrees
  split <;> simp

@[simp] theorem rename_comp_int32 (k : EntityKind) :
    SigTree.rename f k ∘ SigTree.int32 = SigTree.int32 := by
  funext n
  simp

@[simp] theorem rename_comp_int32_of {α : Type} (k : EntityKind) (g : α → Int32) :
    (SigTree.rename f k ∘ fun a => SigTree.int32 (g a)) = fun a => SigTree.int32 (g a) := by
  funext a
  simp

@[simp] theorem lengthTree_map_append {α β : Type} (g : α → β) (as bs : List α) :
    Reading.lengthTree (as.map g ++ bs.map g) = Reading.lengthTree (as ++ bs) := by
  rw [← List.map_append, lengthTree_map]

@[simp] theorem map_rename_parameterTrees (ps vs : List SigTree) :
    (Reading.parameterTrees ps vs).map (SigTree.rename f .type) =
      Reading.parameterTrees (ps.map (SigTree.rename f .type)) (vs.map (SigTree.rename f .type)) := by
  unfold Reading.parameterTrees
  cases vs <;> simp

@[simp] theorem nonempty_map {α β : Type} (g : α → β) (as : List α) :
    Reading.nonempty (as.map g) = (Reading.nonempty as).map (·.map g) := by
  cases as <;> rfl

end Rename

/-- The computation is mirrored by itself. -/
abbrev Mirrored (m : Source) (H : Horizon) {α : Type} (x : Reading α) (v : α → α) : Prop :=
  Mirrors m H x x v

namespace Mirrored

open Mirrors

variable {m : Source} {H : Horizon} (s : Store)

/-- What does not depend on the reader. -/
theorem ofExcept {α : Type} (r : Except (Failure ReadFault) α) :
    Mirrored m H (MonadExcept.ofExcept r : Reading α) id :=
  Mirrors.ofExcept fun hr hr' => Except.ok.inj (hr.symm.trans hr')

/-! ### Types -/

theorem checkType (t : TypeId) : Mirrored m H (Reading.checkType s t) id :=
  of_unchanged (checkType_still s t) fun _ hx _ => ⟨rfl, (gives_checkType.1 hx).2⟩

theorem typeReference {id : TypeIdentity} (hid : Normal id) :
    Mirrored m H (Reading.typeReference id) (H.number .type) :=
  (registerType (e := .reference id) rfl hid (Level.le_refl _)
    (Entity.isDefinition_reference id)).bind fun _ => pure rfl

theorem definedType (t : TypeId) : Mirrored m H (Reading.definedType s t) (H.number .type) :=
  (checkType s t).bind fun _ => typeReference (definitionIdentity_normal s t)

theorem referredType (ns name : Bytes) (scope : Row) :
    Mirrored m H (Reading.referredType ns name scope) (H.number .type) := by
  unfold Reading.referredType
  split
  · refine options fun {o o'} ho => ?_
    rw [Reading.referenceIdentity, ho.fullAssemblyNames]
    exact typeReference (referenceIdentity_normal o' _ ns name scope)
  · exact refuse

theorem namedType : ∀ r : Row, Mirrored m H (Reading.namedType s r) (H.number .type)
  | .null            => refuse
  | .typeDef t       => definedType s t
  | .typeRef _ _ _ _ => referredType _ _ _
  | .assemblyRef _ _ | .moduleRef _ _ | .typeSpec _ _ | .fieldDef _ | .methodDef _
  | .memberRef _ _ _ _ | .methodSpec _ _ _ => refuse

/-! ### Signatures -/

theorem checkConvention (raw : UInt8) : Mirrored m H (Reading.checkConvention raw) id := by
  unfold Reading.checkConvention
  split
  · exact pure rfl
  · split
    · exact throw
    · exact refuse

mutual

theorem typeTree : ∀ r : Row, Mirrored m H (Reading.typeTree s r) (SigTree.rename H.number .type)
  | .typeSpec _ t => typeSigTree t
  | .null | .typeDef _ | .typeRef _ _ _ _ | .assemblyRef _ _ | .moduleRef _ _ | .fieldDef _
  | .methodDef _ | .memberRef _ _ _ _ | .methodSpec _ _ _ =>
      (namedType s _).bind fun _ => pure (by simp)

theorem typeSigTree : ∀ t : TypeSig,
    Mirrored m H (Reading.typeSigTree s t) (SigTree.rename H.number .type)
  | .null             => refuse
  | .leaf _ _         => pure (by simp)
  | .wrapper _ t      => (typeSigTree t).bind fun _ => pure (by simp)
  | .fnPtr c          => (callSigTree c).bind fun _ => pure (by simp)
  | .named _ r        => (namedType s r).bind fun _ => pure (by simp)
  | .generic _ _      => pure (by simp)
  | .array t _ _ _    => (typeSigTree t).bind fun _ => pure (by simp)
  | .genericInst t as =>
      (typeSigTree t).bind fun _ => (typeSigTrees as).bind fun _ => pure (by simp)
  | .valueArray t _   => (typeSigTree t).bind fun _ => pure (by simp)
  | .modifier _ r t   => (typeTree r).bind fun _ => (typeSigTree t).bind fun _ => pure (by simp)
  | .module _ t       => (typeSigTree t).bind fun _ => pure (by simp)

theorem typeSigTrees : ∀ ts : List TypeSig,
    Mirrored m H (Reading.typeSigTrees s ts) (List.map (SigTree.rename H.number .type))
  | []      => pure rfl
  | t :: ts => (typeSigTree t).bind fun _ => (typeSigTrees ts).bind fun _ => pure rfl

theorem callSigTree : ∀ c : CallSig,
    Mirrored m H (Reading.callSigTree s c) (SigTree.rename H.number .type)
  | .null     => refuse
  | .method raw _ _ t ps vs =>
      (checkConvention raw).bind fun _ => (typeSigTree t).bind fun _ =>
        (typeSigTrees ps).bind fun _ => (typeSigTrees vs).bind fun _ => pure (by simp)
  | .field t  => (typeSigTree t).bind fun _ => pure (by simp)
  | .locals ts => (typeSigTrees ts).bind fun _ => pure (by simp)
  | .inst ts  => (typeSigTrees ts).bind fun _ => pure (by simp)

end

/-! ### Fields and methods -/

theorem memberIdentity (name : Bytes) (type : Row) (c : CallSig) :
    Mirrored m H (Reading.memberIdentity s name type c) (MemberIdentity.rename H.number) :=
  (typeTree s type).bind fun _ => (callSigTree s c).bind fun _ => pure rfl

theorem declaringType (what : String) (name : Bytes) (d : Option TypeId) :
    Mirrored m H (Reading.declaringType s what name d) id :=
  of_unchanged (declaringType_still s what name d) fun _ hx hy => by
    obtain ⟨rfl, -, rfl⟩ := gives_declaringType.1 hx
    obtain ⟨ht, -, -⟩ := gives_declaringType.1 hy
    exact ⟨Option.some.inj ht, rfl⟩

theorem fieldReference (id : MemberIdentity) :
    Mirrors m H (Reading.fieldReference (id.rename H.number)) (Reading.fieldReference id)
      (H.number .field) :=
  (registerField (e := .reference id) rfl (Level.le_refl _) (Entity.isDefinition_reference id)).bind fun _ => pure rfl

theorem methodReference (id : MemberIdentity) :
    Mirrors m H (Reading.methodReference (id.rename H.number)) (Reading.methodReference id)
      (H.number .method) :=
  (registerMethod (e := .reference id) rfl (Level.le_refl _) (Entity.isDefinition_reference id)).bind fun _ => pure rfl

theorem fieldIdentity (f : FieldId) :
    Mirrored m H (Reading.fieldIdentity s f) (MemberIdentity.rename H.number) :=
  (declaringType s _ _ _).bind fun _ => memberIdentity s _ _ _

theorem methodIdentity (f : MethodId) :
    Mirrored m H (Reading.methodIdentity s f) (MemberIdentity.rename H.number) :=
  (declaringType s _ _ _).bind fun _ => memberIdentity s _ _ _

theorem definedField (f : FieldId) : Mirrored m H (Reading.definedField s f) (H.number .field) :=
  (fieldIdentity s f).bind fun _ => fieldReference _

theorem definedMethod (f : MethodId) : Mirrored m H (Reading.definedMethod s f) (H.number .method) :=
  (methodIdentity s f).bind fun _ => methodReference _

theorem parentType (what : String) (name : Bytes) (r : Row) :
    Mirrored m H (Reading.parentType what name r) id := by
  unfold Reading.parentType
  split
  · exact throw
  · exact refuse
  · exact ite (pure rfl) refuse

theorem referredField (name : Bytes) (c : CallSig) (parent : Row) :
    Mirrored m H (Reading.referredField s name c parent) (H.number .field) := by
  have rest : Mirrored m H (do
      let type ← Reading.parentType "Field" name parent
      let id ← Reading.memberIdentity s name type c
      Reading.fieldReference id) (H.number .field) :=
    (parentType _ _ _).bind fun type => (memberIdentity s name type c).bind fun _ => fieldReference _
  exact (ofExcept _).bind fun b => ite rest ((refuse (v := id)).bind fun _ => rest)

theorem referredMethod (name : Bytes) (c : CallSig) (parent : Row) :
    Mirrored m H (Reading.referredMethod s name c parent) (H.number .method) := by
  have rest : Mirrored m H (do
      let type ← Reading.parentType "Method" name parent
      let id ← Reading.memberIdentity s name type c
      Reading.methodReference id) (H.number .method) :=
    (parentType _ _ _).bind fun type => (memberIdentity s name type c).bind fun _ => methodReference _
  have checked : Mirrored m H (if parent.kind? = some .methodDef then
      Reading.refuse (.callSite name) >>= fun _ : PUnit => (do
        let type ← Reading.parentType "Method" name parent
        let id ← Reading.memberIdentity s name type c
        Reading.methodReference id)
      else do
        let type ← Reading.parentType "Method" name parent
        let id ← Reading.memberIdentity s name type c
        Reading.methodReference id) (H.number .method) := ite ((refuse (v := id)).bind fun _ => rest) rest
  exact (ofExcept _).bind fun b => ite checked ((refuse (v := id)).bind fun _ => checked)

theorem fieldToken : ∀ r : Row, Mirrored m H (Reading.fieldToken s r) (H.number .field)
  | .null                => refuse
  | .fieldDef f          => definedField s f
  | .memberRef _ _ _ _   => referredField s _ _ _
  | .typeSpec _ _ | .typeDef _ | .typeRef _ _ _ _ | .assemblyRef _ _ | .moduleRef _ _
  | .methodDef _ | .methodSpec _ _ _ => refuse

theorem methodToken : ∀ r : Row, Mirrored m H (Reading.methodToken s r) (H.number .method)
  | .null                => refuse
  | .methodDef f         => definedMethod s f
  | .memberRef _ _ _ _   => referredMethod s _ _ _
  | .typeSpec _ _ | .typeDef _ | .typeRef _ _ _ _ | .assemblyRef _ _ | .moduleRef _ _
  | .fieldDef _ | .methodSpec _ _ _ => refuse

/-! ### Parts of definitions -/

theorem customAttributes (as : List Live.CustomAttribute) :
    Mirrored m H (Reading.customAttributes s as) (renameAttributes H.number) := by
  have one (a : Live.CustomAttribute) : Mirrored m H (do
      return (⟨← Reading.methodToken s a.constructor, a.blob⟩ : CustomAttribute))
      (CustomAttribute.rename H.number) :=
    (methodToken s a.constructor).bind fun _ => pure rfl
  refine options fun {o o'} ho => ?_
  rw [ho.customAttributes]
  exact ite ((mapM as one).bind fun _ => pure (nonempty_map _ _)) (pure rfl)

theorem typeTrees (rs : List Row) :
    Mirrored m H (Reading.typeTrees s rs) (List.map (SigTree.rename H.number .type)) :=
  mapM rs (typeTree s)

theorem genericParameter (p : GenericParam) :
    Mirrored m H (Reading.genericParameter s p) (GenericParameter.rename H.number) :=
  (typeTrees s p.constraints).bind fun _ => pure (by simp [GenericParameter.rename])

theorem genericParameters (ps : List GenericParam) :
    Mirrored m H (Reading.genericParameters s ps) (renameParameters H.number) :=
  (mapM ps (genericParameter s)).bind fun _ => pure (nonempty_map _ _)

theorem parameter (p : ParamDef) :
    Mirrored m H (Reading.parameter s p) (Parameter.rename H.number) :=
  (customAttributes s p.customAttributes).bind fun _ => pure rfl

theorem accessor : ∀ o : Option MethodId,
    Mirrored m H (Reading.accessor s o) (Option.map (H.number .method))
  | none   => pure rfl
  | some f => (definedMethod s f).bind fun _ => pure rfl

theorem property (p : PropertyDef) : Mirrored m H (Reading.property s p) (Property.rename H.number) :=
  (callSigTree s p.signature).bind fun _ => (accessor s p.getMethod).bind fun _ =>
    (accessor s p.setMethod).bind fun _ => (customAttributes s p.customAttributes).bind fun _ =>
      pure rfl

theorem event (e : EventDef) : Mirrored m H (Reading.event s e) (Event.rename H.number) :=
  (typeTree s e.type).bind fun _ => (accessor s e.addMethod).bind fun _ =>
    (accessor s e.removeMethod).bind fun _ => (accessor s e.invokeMethod).bind fun _ =>
      (customAttributes s e.customAttributes).bind fun _ => pure rfl

/-! ### Method bodies -/

theorem targetIndex (size : Nat) : ∀ t : Target, Mirrored m H (Reading.targetIndex size t) id
  | .inside _         => ite (pure rfl) refuse
  | .null | .outside => refuse

theorem boundaryIndex (size : Nat) : ∀ t : Target, Mirrored m H (Reading.boundaryIndex size t) id
  | .null     => pure rfl
  | .inside n => targetIndex size (.inside n)
  | .outside  => targetIndex size .outside

theorem rowOperand : ∀ r : Row,
    Mirrored m H (Reading.rowOperand s r) (SigTree.rename H.number .type)
  | .null              => refuse
  | .fieldDef _        => (fieldToken s _).bind fun _ => pure (by simp [OperandKind.entity])
  | .methodDef _       => (methodToken s _).bind fun _ => pure (by simp [OperandKind.entity])
  | .memberRef _ _ _ _ => (ofExcept _).bind fun _ => ite
      ((fieldToken s _).bind fun _ => pure (by simp [OperandKind.entity]))
      ((methodToken s _).bind fun _ => pure (by simp [OperandKind.entity]))
  | .methodSpec _ _ _  => (methodToken s _).bind fun _ => (callSigTree s _).bind fun _ =>
      pure (by simp)
  | .typeSpec n t      => (typeTree s (.typeSpec n t)).bind fun _ => pure (by
      simp [OperandKind.entity])
  | .typeDef t         => (typeTree s (.typeDef t)).bind fun _ => pure (by
      simp [OperandKind.entity])
  | .typeRef i ns n r  => (typeTree s (.typeRef i ns n r)).bind fun _ => pure (by
      simp [OperandKind.entity])
  | .assemblyRef _ _ | .moduleRef _ _ => refuse

theorem tokenOperand (o : Live.Operand) :
    Mirrored m H (Reading.tokenOperand s o) (SigTree.rename H.number .type) := by
  unfold Reading.tokenOperand
  split
  · exact rowOperand s _
  · exact ite refuse (ite (callSigTree s _) refuse)
  · exact refuse

theorem operand (size : Nat) (op : OpCode) (o : Live.Operand) :
    Mirrored m H (Reading.operand s size op o) (Option.map (Operand.rename H.number)) := by
  unfold Reading.operand
  split
  all_goals first
    | exact pure rfl
    | exact refuse
    | exact (targetIndex size _).bind fun _ => pure rfl
    | exact (mapM _ (targetIndex size)).bind fun _ => pure (by simp [Operand.rename])
    | exact (tokenOperand s _).bind fun _ => pure rfl

theorem instruction (size : Nat) (i : Live.Instruction) :
    Mirrored m H (Reading.instruction s size i) (Instruction.rename H.number) :=
  (operand s size _ _).bind fun _ => pure rfl

theorem handler (size : Nat) (h : Live.ExceptionHandler) :
    Mirrored m H (Reading.handler s size h) (ExceptionHandler.rename H.number) := by
  refine (targetIndex size _).bind fun _ => (boundaryIndex size _).bind fun _ =>
    (boundaryIndex size _).bind fun _ => (targetIndex size _).bind fun _ =>
      (boundaryIndex size _).bind fun _ => ite ?_ ?_
  · refine (absent (SigTree.rename H.number .type)).bind fun _ => ?_
    exact pure rfl
  · refine ((typeTree s _).map (w := Option.map (SigTree.rename H.number .type)) fun _ => rfl).bind
      fun _ => ?_
    exact pure rfl

theorem body (b : Live.MethodBody) : Mirrored m H (Reading.body s b) (MethodBody.rename H.number) :=
  (mapM _ (instruction s _)).bind fun _ => (mapM _ (handler s _)).bind fun _ =>
    (typeSigTrees s _).bind fun _ => pure rfl

/-! ### Definition data -/

theorem typeData (d : TypeDef) : Mirrored m H (Reading.typeData s d) (TypeData.rename H.number) := by
  refine ite ?_ ?_
  · exact (absent (SigTree.rename H.number .type)).bind fun _ =>
      (typeTrees s _).bind fun _ => (genericParameters s _).bind fun _ =>
        (customAttributes s _).bind fun _ => pure (by simp [TypeData.rename])
  · exact ((typeTree s _).map (w := Option.map (SigTree.rename H.number .type)) fun _ => rfl).bind
      fun _ => (typeTrees s _).bind fun _ => (genericParameters s _).bind fun _ =>
        (customAttributes s _).bind fun _ => pure (by simp [TypeData.rename])

theorem fieldData (d : FieldDef) :
    Mirrored m H (Reading.fieldData s d) (FieldData.rename H.number) :=
  (customAttributes s _).bind fun _ => pure rfl

theorem implMap (name : Bytes) (i : Live.ImplMap) : Mirrored m H (Reading.implMap name i) id := by
  unfold Reading.implMap
  split
  · exact pure rfl
  · exact refuse

theorem methodData (d : MethodDef) :
    Mirrored m H (Reading.methodData s d) (MethodData.rename H.number) := by
  refine (mapM _ (parameter s)).bind fun _ => (mapM _ (methodToken s)).bind fun _ =>
    (genericParameters s _).bind fun _ => (customAttributes s _).bind fun _ =>
      options fun {o o'} ho => ?_
  rw [ho.methodBodies]
  refine ite ?_ ?_
  · refine (option_mapM _ (body s)).bind fun _ => (option_mapM _ (implMap _)).bind fun _ => ?_
    exact pure (by simp [MethodData.rename])
  · refine (absent (MethodBody.rename H.number)).bind fun _ =>
      (option_mapM _ (implMap _)).bind fun _ => ?_
    exact pure (by simp [MethodData.rename])

/-! ### Entities -/

theorem checkLevel (highest asked : Level) : Mirrored m H (Reading.checkLevel highest asked) id :=
  ite refuse (pure rfl)

theorem field (f : Option FieldId) (level : Level) :
    Mirrored m H (Reading.field s f level) (H.number .field) := by
  cases f with
  | none => exact refuse
  | some f =>
      exact (checkLevel _ _).bind fun _ => (fieldIdentity s f).bind fun id =>
        (registerField (e := .reference id) rfl (Level.le_refl _)
          (Entity.isDefinition_reference id)).bind fun _ => ite (pure rfl)
            ((fieldData s _).bind fun d => (registerField (e := .definition id d) rfl (by decide)
              (Entity.isDefinition_definition id d (Level.le_refl _))).bind fun _ => pure rfl)

theorem method (f : Option MethodId) (level : Level) :
    Mirrored m H (Reading.method s f level) (H.number .method) := by
  cases f with
  | none => exact refuse
  | some f =>
      exact (checkLevel _ _).bind fun _ => (methodIdentity s f).bind fun id =>
        (registerMethod (e := .reference id) rfl (Level.le_refl _)
          (Entity.isDefinition_reference id)).bind fun _ => ite (pure rfl)
            ((methodData s _).bind fun d => (registerMethod (e := .definition id d) rfl (by decide)
              (Entity.isDefinition_definition id d (Level.le_refl _))).bind fun _ => pure rfl)

theorem fields (fs : List (Option FieldId)) (level : Level) :
    Mirrored m H (Reading.fields s fs level) (List.map (H.number .field)) :=
  mapM fs fun f => field s f level

theorem methods (fs : List (Option MethodId)) (level : Level) :
    Mirrored m H (Reading.methods s fs level) (List.map (H.number .method)) :=
  mapM fs fun f => method s f level

/-- The data of a definition. -/
theorem requireData (e : TypeEntity) :
    Mirrors m H (MonadExcept.ofExcept (e.rename H.number).requireData : Reading TypeData)
      (MonadExcept.ofExcept e.requireData) (TypeData.rename H.number) :=
  Mirrors.ofExcept fun {_ _} hr hr' => by
    cases e with
    | reference id => exact nomatch hr'
    | definition id d =>
        cases hr
        cases hr'
        rfl

/-- The last step of reading the children of a type: what is stored of it is registered again with them. -/
def putChildren (ns fs ms : List Token) (ps : List Property) (es : List Event) :
    Except TokenMapFault TypeEntity → Reading Unit
  | .error f => Reading.refuse (.store f)
  | .ok e    => do
      let data : TypeData ← MonadExcept.ofExcept e.requireData
      let _ ← Reading.registerType (.definition e.identity { data with
        nestedTypes := some ns, fields := some fs, methods := some ms, properties := some ps,
        events := some es }) .withChildren

/-- What is stored under the token of a type is, with numbers, what is stored under its number. -/
theorem children (t : TypeId) (k : Token) (ns : List Token) :
    Mirrors m H (Reading.children s t (H.number .type k) (ns.map (H.number .type)))
      (Reading.children s t k ns) id := by
  refine (fields s _ _).bind fun fs => (methods s _ _).bind fun ms =>
    (mapM _ (property s)).bind fun ps => (mapM _ (event s)).bind fun es => ?_
  refine view (p := fun r => r.catalog.types.get (H.number .type k))
    (q := fun r => r.catalog.types.get k)
    (R := fun a b => ∀ e, b = .ok e → Normal e.identity ∧ a = .ok (TypeEntity.rename H.number e))
    (f := putChildren _ _ _ _ _) (g := putChildren ns fs ms ps es)
    (fun {ρ σ} hs h hk e he => ?_) (fun {σ} hs => ?_) fun {a b} hab => ?_
  · have he := TokenMap.get?_of_get he
    refine ⟨(hs.types.listed k e he).1, TokenMap.get_of_get? ?_⟩
    have keys : σ.catalog.types.keys <+: H.catalog.keys .type := hk.types.keys
    rw [h.types.get? fun k' hk' => H.number_inj keys k (TokenMap.mem_keys_of_get? he) k' hk', he]
    rfl
  · cases hb : σ.catalog.types.get k with
    | error f => exact ⟨.error f, fun e he => nomatch he⟩
    | ok e =>
        refine ⟨.ok (TypeEntity.rename H.number e), fun e' he' => ?_⟩
        cases he'
        exact ⟨(hs.types.listed k e (TokenMap.get?_of_get hb)).1, rfl⟩
  · cases b with
    | error f => exact refuse
    | ok e =>
        obtain ⟨hid, rfl⟩ := hab e rfl
        refine (requireData e).bind fun d => ?_
        refine (registerType (e := .definition e.identity _) ?_ hid (by decide)
          (Entity.isDefinition_definition _ _ (by decide))).bind fun _ => pure rfl
        rw [TypeEntity.rename, TypeEntity.rename, Entity.identity_map]
        rfl

theorem typeWithin (depth : Nat) : ∀ (t : Option TypeId) (level : Level),
    Mirrored m H (Reading.typeWithin s depth t level) (H.number .type) := by
  induction depth with
  | zero => exact fun _ _ => throw
  | succ depth ih =>
      intro t level
      cases t with
      | none => exact refuse
      | some t =>
          have hid := definitionIdentity_normal s t
          -- what follows the definition, whether that has just been read or was on record before
          have rest (k : Token) : Mirrors m H
              (do
                if level ≤ .definition then return H.number .type k
                let nested ← (s.typeDef t).nestedTypes.mapM fun n =>
                  Reading.typeWithin s depth (some n) level
                Reading.children s t (H.number .type k) nested
                return H.number .type k)
              (do
                if level ≤ .definition then return k
                let nested ← (s.typeDef t).nestedTypes.mapM fun n =>
                  Reading.typeWithin s depth (some n) level
                Reading.children s t k nested
                return k) (H.number .type) :=
            ite (pure rfl) ((mapM _ fun n => ih (some n) level).bind fun ns =>
              (children s t k ns).bind fun _ => pure rfl)
          exact (checkLevel _ _).bind fun _ => (checkType s t).bind fun _ =>
            (registerType (e := .reference _) rfl hid (Level.le_refl _)
              (Entity.isDefinition_reference _)).bind fun r => ite (pure rfl) (ite
                ((typeData s _).bind fun d => (registerType (e := .definition _ d) rfl hid (by decide)
                  (Entity.isDefinition_definition _ d (Level.le_refl _))).bind fun _ => rest r.token)
                (rest r.token))

theorem type (t : Option TypeId) (level : Level) :
    Mirrored m H (Reading.type s t level) (H.number .type) :=
  typeWithin s _ t level

theorem specification (t : Option TypeSig) :
    Mirrored m H (Reading.specification s t) (SigTree.rename H.number .type) := by
  cases t with
  | none => exact refuse
  | some t => exact typeSigTree s t

end Mirrored

/-! ### Requests -/

namespace Reader

/-- What the tokens in an answer stand for. -/
def Request.kind : Request → EntityKind
  | .type _ _ | .types _ _ | .specification _ => .type
  | .field _ _ | .fields _ _   => .field
  | .method _ _ | .methods _ _ => .method

/-- An answer with its tokens replaced. -/
def Answer.rename (f : Renaming) (k : EntityKind) : Answer → Answer
  | token t   => token (f k t)
  | tokens ts => tokens (ts.map (f k))
  | tree t    => tree (t.rename f k)

end Reader

/-- Two readers that are like each other serve a request alike. -/
theorem Mirrored.serve {m : Source} {H : Horizon} (s : Store) (q : Reader.Request) :
    Mirrored m H (Reader.serve s q) (Reader.Answer.rename H.number q.kind) := by
  cases q with
  | type t level => exact (type s t level).bind fun _ => Mirrors.pure rfl
  | field f level => exact (field s f level).bind fun _ => Mirrors.pure rfl
  | method f level => exact (method s f level).bind fun _ => Mirrors.pure rfl
  | types ts level => exact (Mirrors.mapM ts fun t => type s t level).bind fun _ => Mirrors.pure rfl
  | fields fs level => exact (fields s fs level).bind fun _ => Mirrors.pure rfl
  | methods fs level => exact (methods s fs level).bind fun _ => Mirrors.pure rfl
  | specification t => exact (specification s t).bind fun _ => Mirrors.pure rfl

/-- The entries of the first catalog are those of the second, with the positions of names in place of the names. -/
structure Catalog.Numbers (c c' : Catalog) : Prop where
  types : c.types.entries =
    c'.types.entries.map fun e => (c'.number .type e.1, TypeEntity.rename c'.number e.2)
  fields : c.fields.entries =
    c'.fields.entries.map fun e => (c'.number .field e.1, FieldEntity.rename c'.number e.2)
  methods : c.methods.entries =
    c'.methods.entries.map fun e => (c'.number .method e.1, MethodEntity.rename c'.number e.2)

namespace Reader

variable {s : Store} {ρ ρ' : Reader}

/-- Requests that are all served leave the reader after all of them. -/
theorem afterAll_of_gives {qs : List Request} {as : List Answer}
    (h : Gives (qs.mapM (serve s)) ρ as ρ') : ρ.afterAll s qs = ρ' := by
  induction qs generalizing ρ as with
  | nil => exact (gives_mapM_nil.1 h).2.symm
  | cons q qs ih =>
      obtain ⟨a, ρ₁, as', ha, has, -⟩ := gives_mapM_cons.1 h
      have : ρ.after s q = ρ₁ := by rw [after, show serve s q ρ = (.ok a, ρ₁) from ha]
      rw [afterAll, List.foldl_cons, this]
      exact ih has

/-- Readers that have recorded nothing are like each other. -/
theorem start_like (H : Horizon) (i : ImageId) {o : Options} (ho : o.namedTokens = false) :
    Like H (start i o) (start i o.withNamedTokens) where
  image := rfl
  indexed := ho
  options := rfl
  types := ⟨rfl, rfl⟩
  fields := ⟨rfl, rfl⟩
  methods := ⟨rfl, rfl⟩

/-- Whether tokens are names makes no difference but for their spelling.  Two readers of a module, one with indices and one with names, that serve all of some requests have recorded equally much, and what the one has recorded and answered is what the other has, with the positions of names in place of the names.  The requests are any, so this is so after each of them. -/
theorem numbered (s : Store) (i : ImageId) {o : Options} (ho : o.namedTokens = false)
    (qs : List Request) {as bs : List Answer} {ρ σ : Reader}
    (h : Gives (qs.mapM (serve s)) (start i o) as ρ)
    (h' : Gives (qs.mapM (serve s)) (start i o.withNamedTokens) bs σ) :
    ρ.catalog.counts = σ.catalog.counts ∧
      as = List.zipWith (fun q b => b.rename σ.catalog.number q.kind) qs bs ∧
      ρ.catalog.Numbers σ.catalog := by
  let m : Source := ⟨s, i, o.withNamedTokens⟩
  have named : σ.catalog.options.namedTokens = true := by
    obtain ⟨hs, -⟩ := orderly_afterAll (start_orderly m) qs
    rw [← afterAll_of_gives h', hs.sound.options]
    exact o.namedTokens_withNamedTokens
  have closed : σ.catalog.Closed := by
    rw [← afterAll_of_gives h']
    exact closed_afterAll s i _ qs
  -- the positions are those at the end
  let H : Horizon := ⟨σ.catalog, closed, named⟩
  have run : Mirrors m H (qs.mapM (serve s)) (qs.mapM (serve s)) _ := .mapM_zip qs (Mirrored.serve s)
  obtain ⟨answers, like⟩ := run.same (start_sound m) (start_like H i ho) h h' (.refl _)
  refine ⟨?_, answers, like.types.entries, like.fields.entries, like.methods.entries⟩
  rw [Catalog.counts, like.types.size, like.fields.size, like.methods.size, Catalog.counts]

/-- A type with its children, with indices and with names. -/
theorem numbered_family : ∃ as bs ρ σ,
    Options.default.namedTokens = false ∧
    Gives ([Request.type (some ⟨0⟩) .withChildren].mapM (serve family.store)) (start ⟨0⟩ .default)
      as ρ ∧
    Gives ([Request.type (some ⟨0⟩) .withChildren].mapM (serve family.store))
      (start ⟨0⟩ Options.default.withNamedTokens) bs σ ∧
    ρ.catalog.counts = (2, 1, 1) ∧ ρ.catalog.counts = σ.catalog.counts ∧
    as = List.zipWith (fun q b => Answer.rename σ.catalog.number q.kind b)
      [Request.type (some ⟨0⟩) .withChildren] bs ∧
    ρ.catalog.Numbers σ.catalog := by
  obtain ⟨as, ha⟩ := gives_of_isOk (x := [Request.type (some ⟨0⟩) .withChildren].mapM
    (serve family.store)) (a := start ⟨0⟩ .default) (by decide +kernel)
  obtain ⟨bs, hb⟩ := gives_of_isOk (x := [Request.type (some ⟨0⟩) .withChildren].mapM
    (serve family.store)) (a := start ⟨0⟩ Options.default.withNamedTokens) (by decide +kernel)
  exact ⟨as, bs, _, _, by decide, ha, hb, by decide +kernel,
    numbered family.store ⟨0⟩ (by decide) _ ha hb⟩

end Reader

end CilCatalog
