import CilCatalog.Proofs.Reading.Covered
import CilCatalog.Reading.Entity

/-!
# No token dangles

Every function that reads adds to a closed catalog only what keeps it closed, also where it fails half-way.  There is one lemma for each of them, which says what the tokens in its result stand for.

* `Covered.children`: what is stored a second time, with its children, has its other tokens from the first time.
* `Reader.closed_afterAll`: after any requests, refused ones included, the catalog of a reader is closed.
-/

namespace CilCatalog

open Live

/-! ### Uses of what is put together -/

attribute [simp] SigTree.uses

@[simp] theorem SigTree.uses_ofElement (k : EntityKind) (e : ElementType) (as : List SigTree) :
    (SigTree.ofElement e as).uses k = SigTree.usesOfAll as := by
  rw [SigTree.ofElement, SigTree.uses]

@[simp] theorem SigTree.uses_ofConvention (k : EntityKind) (c : CallingConvention) (as : List SigTree) :
    (SigTree.ofConvention c as).uses k = SigTree.usesOfAll as := by
  rw [SigTree.ofConvention, SigTree.uses]

@[simp] theorem SigTree.usesOfAll_eq_flatMap (as : List SigTree) :
    SigTree.usesOfAll as = as.flatMap (SigTree.uses .type) := by
  induction as with
  | nil => rw [SigTree.usesOfAll, List.flatMap_nil]
  | cons a as ih => rw [SigTree.usesOfAll, ih, List.flatMap_cons]

@[simp] theorem uses_lengthTree {α : Type} (k : EntityKind) (as : List α) :
    (Reading.lengthTree as).uses k = [] := by
  rw [Reading.lengthTree, SigTree.uses]

@[simp] theorem uses_flagsTree (k : EntityKind) (raw : UInt8) : (Reading.flagsTree raw).uses k = [] := by
  rw [Reading.flagsTree, SigTree.uses]

@[simp] theorem flatMap_uses_genericTrees (raw : UInt8) (n : UInt32) :
    (Reading.genericTrees raw n).flatMap (SigTree.uses .type) = [] := by
  unfold Reading.genericTrees
  split
  · simp
  · rfl

@[simp] theorem flatMap_uses_map_int32 (ns : List Int32) :
    (ns.map SigTree.int32).flatMap (SigTree.uses .type) = [] := by
  simp [List.flatMap_map]

@[simp] theorem flatMap_uses_int32 {α : Type} (f : α → Int32) (as : List α) :
    (as.map fun a => SigTree.int32 (f a)).flatMap (SigTree.uses .type) = [] := by
  simp [List.flatMap_map]

@[simp] theorem usesOfList_nonempty {α : Type} (f : α → List Use) (as : List α) :
    usesOfList f (Reading.nonempty as) = as.flatMap f := by
  cases as <;> rfl

@[simp] theorem flatMap_uses_parameterTrees (ps vs : List SigTree) :
    (Reading.parameterTrees ps vs).flatMap (SigTree.uses .type) =
      ps.flatMap (SigTree.uses .type) ++ vs.flatMap (SigTree.uses .type) := by
  unfold Reading.parameterTrees
  cases vs with
  | nil => simp
  | cons v vs => simp

namespace Covered

variable {us : List Use} (s : Store)

/-! ### Types -/

theorem checkType (t : TypeId) : Covered us (Reading.checkType s t) fun _ => [] :=
  get.bind fun _ => ite (pure fun _ _ => Catalog.covers_nil) refuse

theorem typeReference {id : TypeIdentity} :
    Covered us (Reading.typeReference id) (Token.uses .type) :=
  token (registerType (e := .reference id) (by simp [TypeIdentity.uses]))

theorem definedType (t : TypeId) : Covered us (Reading.definedType s t) (Token.uses .type) :=
  (checkType s t).bind fun _ => typeReference

theorem referredType (ns name : Bytes) (scope : Row) :
    Covered us (Reading.referredType ns name scope) (Token.uses .type) := by
  unfold Reading.referredType
  split
  · exact options.bind fun _ => typeReference
  · exact refuse

theorem namedType : ∀ r : Row, Covered us (Reading.namedType s r) (Token.uses .type)
  | .null            => refuse
  | .typeDef t       => definedType s t
  | .typeRef _ _ _ _ => referredType _ _ _
  | .assemblyRef _ _ | .moduleRef _ _ | .typeSpec _ _ | .fieldDef _ | .methodDef _
  | .memberRef _ _ _ _ | .methodSpec _ _ _ => refuse

/-! ### Signatures -/

theorem checkConvention (raw : UInt8) : Covered us (Reading.checkConvention raw) fun _ => [] := by
  unfold Reading.checkConvention
  exact ite (pure fun _ _ => Catalog.covers_nil) (ite throw refuse)

mutual

theorem typeTree : ∀ (r : Row) {us : List Use}, Covered us (Reading.typeTree s r) (SigTree.uses .type)
  | .typeSpec _ t, _ => typeSigTree t
  | .null, _ | .typeDef _, _ | .typeRef _ _ _ _, _ | .assemblyRef _ _, _ | .moduleRef _ _, _
  | .fieldDef _, _ | .methodDef _, _ | .memberRef _ _ _ _, _ | .methodSpec _ _ _, _ =>
      (namedType s _).bind fun _ => pure (by simp +contextual)

theorem typeSigTree : ∀ (t : TypeSig) {us : List Use},
    Covered us (Reading.typeSigTree s t) (SigTree.uses .type)
  | .null, _             => refuse
  | .leaf _ _, _         => pure (by simp)
  | .wrapper _ t, _      => (typeSigTree t).bind fun _ => pure (by simp +contextual)
  | .fnPtr c, _          => (callSigTree c).bind fun _ => pure (by simp +contextual)
  | .named _ r, _        => (namedType s r).bind fun _ => pure (by simp +contextual)
  | .generic _ _, _      => pure (by simp)
  | .array t _ _ _, _    => (typeSigTree t).bind fun _ => pure (by simp +contextual)
  | .genericInst t as, _ =>
      (typeSigTree t).bind fun _ => (typeSigTrees as).bind fun _ => pure (by simp +contextual)
  | .valueArray t _, _   => (typeSigTree t).bind fun _ => pure (by simp +contextual)
  | .modifier _ r t, _   =>
      (typeTree r).bind fun _ => (typeSigTree t).bind fun _ => pure (by simp +contextual)
  | .module _ t, _       => (typeSigTree t).bind fun _ => pure (by simp +contextual)

theorem typeSigTrees : ∀ (ts : List TypeSig) {us : List Use},
    Covered us (Reading.typeSigTrees s ts) fun as => as.flatMap (SigTree.uses .type)
  | [], _      => pure (by simp)
  | t :: ts, _ =>
      (typeSigTree t).bind fun _ => (typeSigTrees ts).bind fun _ => pure (by simp +contextual)

theorem callSigTree : ∀ (c : CallSig) {us : List Use},
    Covered us (Reading.callSigTree s c) (SigTree.uses .type)
  | .null, _ => refuse
  | .method raw _ _ t ps vs, _ =>
      (checkConvention raw).bind fun _ => (typeSigTree t).bind fun _ =>
        (typeSigTrees ps).bind fun _ => (typeSigTrees vs).bind fun _ =>
          pure (by simp +contextual)
  | .field t, _            => (typeSigTree t).bind fun _ => pure (by simp +contextual)
  | .locals ts, _          => (typeSigTrees ts).bind fun _ => pure (by simp +contextual)
  | .inst ts, _            => (typeSigTrees ts).bind fun _ => pure (by simp +contextual)

end

/-! ### Fields and methods -/

theorem memberIdentity (name : Bytes) (type : Row) (c : CallSig) :
    Covered us (Reading.memberIdentity s name type c) MemberIdentity.uses :=
  (typeTree s type).bind fun _ => (callSigTree s c).bind fun _ => pure (by
    simp +contextual [MemberIdentity.uses])

theorem declaringType (what : String) (name : Bytes) (d : Option TypeId) :
    Covered us (Reading.declaringType s what name d) fun _ => [] := by
  refine get.bind fun _ => ?_
  cases d with
  | none => exact refuse
  | some t => exact ite (pure fun _ _ => Catalog.covers_nil) refuse

theorem fieldReference {id : MemberIdentity} :
    Covered (us ++ id.uses) (Reading.fieldReference id) (Token.uses .field) :=
  token (registerField (e := .reference id) (by simp))

theorem methodReference {id : MemberIdentity} :
    Covered (us ++ id.uses) (Reading.methodReference id) (Token.uses .method) :=
  token (registerMethod (e := .reference id) (by simp))

theorem fieldIdentity (f : FieldId) : Covered us (Reading.fieldIdentity s f) MemberIdentity.uses :=
  (declaringType s _ _ _).bind fun _ => memberIdentity s _ _ _

theorem methodIdentity (f : MethodId) : Covered us (Reading.methodIdentity s f) MemberIdentity.uses :=
  (declaringType s _ _ _).bind fun _ => memberIdentity s _ _ _

theorem definedField (f : FieldId) : Covered us (Reading.definedField s f) (Token.uses .field) :=
  (fieldIdentity s f).bind fun _ => fieldReference

theorem definedMethod (f : MethodId) : Covered us (Reading.definedMethod s f) (Token.uses .method) :=
  (methodIdentity s f).bind fun _ => methodReference

theorem parentType (what : String) (name : Bytes) (r : Row) :
    Covered us (Reading.parentType what name r) fun _ => [] := by
  unfold Reading.parentType
  split
  · exact throw
  · exact refuse
  · exact ite (pure fun _ _ => Catalog.covers_nil) refuse

theorem referredField (name : Bytes) (c : CallSig) (parent : Row) :
    Covered us (Reading.referredField s name c parent) (Token.uses .field) := by
  have rest {us : List Use} : Covered us (do
      let type ← Reading.parentType "Field" name parent
      let id ← Reading.memberIdentity s name type c
      Reading.fieldReference id) (Token.uses .field) :=
    (parentType _ _ _).bind fun type => (memberIdentity s name type c).bind fun _ => fieldReference
  exact ofExcept.bind fun b => ite rest (Covered.bind (v := fun _ => []) refuse fun _ => rest)

theorem referredMethod (name : Bytes) (c : CallSig) (parent : Row) :
    Covered us (Reading.referredMethod s name c parent) (Token.uses .method) := by
  have rest {us : List Use} : Covered us (do
      let type ← Reading.parentType "Method" name parent
      let id ← Reading.memberIdentity s name type c
      Reading.methodReference id) (Token.uses .method) :=
    (parentType _ _ _).bind fun type => (memberIdentity s name type c).bind fun _ => methodReference
  have checked {us : List Use} : Covered us (if parent.kind? = some .methodDef then
      Reading.refuse (.callSite name) >>= fun _ : PUnit => (do
        let type ← Reading.parentType "Method" name parent
        let id ← Reading.memberIdentity s name type c
        Reading.methodReference id)
      else do
        let type ← Reading.parentType "Method" name parent
        let id ← Reading.memberIdentity s name type c
        Reading.methodReference id) (Token.uses .method) :=
    ite (Covered.bind (v := fun _ => []) refuse fun _ => rest) rest
  exact ofExcept.bind fun b => ite checked (Covered.bind (v := fun _ => []) refuse fun _ => checked)

theorem fieldToken : ∀ r : Row, Covered us (Reading.fieldToken s r) (Token.uses .field)
  | .null                => refuse
  | .fieldDef f          => definedField s f
  | .memberRef _ _ _ _   => referredField s _ _ _
  | .typeSpec _ _ | .typeDef _ | .typeRef _ _ _ _ | .assemblyRef _ _ | .moduleRef _ _
  | .methodDef _ | .methodSpec _ _ _ => refuse

theorem methodToken : ∀ r : Row, Covered us (Reading.methodToken s r) (Token.uses .method)
  | .null                => refuse
  | .methodDef f         => definedMethod s f
  | .memberRef _ _ _ _   => referredMethod s _ _ _
  | .typeSpec _ _ | .typeDef _ | .typeRef _ _ _ _ | .assemblyRef _ _ | .moduleRef _ _
  | .fieldDef _ | .methodSpec _ _ _ => refuse

/-! ### Parts of definitions -/

theorem customAttributes (as : List Live.CustomAttribute) :
    Covered us (Reading.customAttributes s as) (usesOfList CustomAttribute.uses) :=
  options.bind fun _ => ite
    ((mapM (w := CustomAttribute.uses) as fun a => (methodToken s a.constructor).bind fun _ => pure (by
        simp [CustomAttribute.uses])).bind fun _ => pure (by simp))
    (pure (by simp [usesOfList]))

theorem typeTrees (rs : List Row) :
    Covered us (Reading.typeTrees s rs) fun as => as.flatMap (SigTree.uses .type) :=
  mapM rs fun r => typeTree s r

theorem genericParameter (p : GenericParam) :
    Covered us (Reading.genericParameter s p) GenericParameter.uses :=
  (typeTrees s p.constraints).bind fun _ => pure (by simp [GenericParameter.uses])

theorem genericParameters (ps : List GenericParam) :
    Covered us (Reading.genericParameters s ps) (usesOfList GenericParameter.uses) :=
  (mapM ps fun p => genericParameter s p).bind fun _ => pure (by simp)

theorem parameter (p : ParamDef) : Covered us (Reading.parameter s p) Parameter.uses :=
  (customAttributes s p.customAttributes).bind fun _ => pure (by simp [Parameter.uses])

theorem accessor : ∀ o : Option MethodId,
    Covered us (Reading.accessor s o) (usesOf (Token.uses .method))
  | none   => pure (by simp [usesOf])
  | some f => (definedMethod s f).bind fun _ => pure (by simp [usesOf])

theorem property (p : PropertyDef) : Covered us (Reading.property s p) Property.uses :=
  (callSigTree s p.signature).bind fun _ => (accessor s p.getMethod).bind fun _ =>
    (accessor s p.setMethod).bind fun _ => (customAttributes s p.customAttributes).bind fun _ =>
      pure (by simp +contextual [Property.uses])

theorem event (e : EventDef) : Covered us (Reading.event s e) Event.uses :=
  (typeTree s e.type).bind fun _ => (accessor s e.addMethod).bind fun _ =>
    (accessor s e.removeMethod).bind fun _ => (accessor s e.invokeMethod).bind fun _ =>
      (customAttributes s e.customAttributes).bind fun _ =>
        pure (by simp +contextual [Event.uses])

/-! ### Method bodies -/

theorem targetIndex (size : Nat) :
    ∀ t : Target, Covered us (Reading.targetIndex size t) fun _ => []
  | .inside _         => ite (pure fun _ _ => Catalog.covers_nil) refuse
  | .null | .outside => refuse

theorem boundaryIndex (size : Nat) :
    ∀ t : Target, Covered us (Reading.boundaryIndex size t) fun _ => []
  | .null     => pure fun _ _ => Catalog.covers_nil
  | .inside n => targetIndex size (.inside n)
  | .outside  => targetIndex size .outside

theorem rowOperand : ∀ r : Row, Covered us (Reading.rowOperand s r) (SigTree.uses .type)
  | .null              => refuse
  | .fieldDef _        => (fieldToken s _).bind fun _ => pure (by simp [OperandKind.entity])
  | .methodDef _       => (methodToken s _).bind fun _ => pure (by simp [OperandKind.entity])
  | .memberRef _ _ _ _ => ofExcept.bind fun _ => ite
      ((fieldToken s _).bind fun _ => pure (by simp [OperandKind.entity]))
      ((methodToken s _).bind fun _ => pure (by simp [OperandKind.entity]))
  | .methodSpec _ _ _  =>
      (methodToken s _).bind fun _ => (callSigTree s _).bind fun _ => pure (by simp +contextual)
  | .typeSpec n t       => (typeTree s (.typeSpec n t)).bind fun _ => pure (by
      simp [OperandKind.entity])
  | .typeDef t          => (typeTree s (.typeDef t)).bind fun _ => pure (by
      simp [OperandKind.entity])
  | .typeRef i ns n r   => (typeTree s (.typeRef i ns n r)).bind fun _ => pure (by
      simp [OperandKind.entity])
  | .assemblyRef _ _ | .moduleRef _ _ => refuse

theorem tokenOperand (o : Live.Operand) :
    Covered us (Reading.tokenOperand s o) (SigTree.uses .type) := by
  unfold Reading.tokenOperand
  split
  · exact rowOperand s _
  · exact ite refuse (ite (callSigTree s _) refuse)
  · exact refuse

theorem operand (size : Nat) (op : OpCode) (o : Live.Operand) :
    Covered us (Reading.operand s size op o) (usesOf Operand.uses) := by
  unfold Reading.operand
  split
  all_goals first
    | exact pure (by simp [usesOf, Operand.uses])
    | exact refuse
    | exact (targetIndex size _).bind fun _ => pure (by simp [usesOf, Operand.uses])
    | exact (mapM _ fun t => targetIndex size t).bind fun _ => pure (by
        simp [usesOf, Operand.uses])
    | exact (tokenOperand s _).bind fun _ => pure (by simp [usesOf, Operand.uses])

theorem instruction (size : Nat) (i : Live.Instruction) :
    Covered us (Reading.instruction s size i) Instruction.uses :=
  (operand s size _ _).bind fun _ => pure (by simp [Instruction.uses])

theorem handler (size : Nat) (h : Live.ExceptionHandler) :
    Covered us (Reading.handler s size h) ExceptionHandler.uses := by
  refine (targetIndex size _).bind fun _ => (boundaryIndex size _).bind fun _ =>
    (boundaryIndex size _).bind fun _ => (targetIndex size _).bind fun _ =>
      (boundaryIndex size _).bind fun _ => ite ?_ ?_
  · exact (pure (v := usesOf (SigTree.uses .type)) (by simp)).bind fun _ =>
      pure (by simp [ExceptionHandler.uses])
  · exact ((typeTree s _).map (w := usesOf (SigTree.uses .type)) (by simp)).bind fun _ =>
      pure (by simp [ExceptionHandler.uses])

theorem body (b : Live.MethodBody) : Covered us (Reading.body s b) MethodBody.uses :=
  (mapM _ fun i => instruction s _ i).bind fun _ => (mapM _ fun h => handler s _ h).bind fun _ =>
    (typeSigTrees s _).bind fun _ => pure (by simp +contextual [MethodBody.uses])

/-! ### Definition data -/

theorem typeData (d : TypeDef) : Covered us (Reading.typeData s d) TypeData.uses := by
  have rest {us : List Use} (base : Option SigTree) :
      Covered (us ++ usesOf (SigTree.uses .type) base) (do
        let interfaces ← Reading.typeTrees s d.interfaces
        let genericParameters ← Reading.genericParameters s d.genericParams
        let customAttributes ← Reading.customAttributes s d.customAttributes
        return {
          attributes := d.attributes.toInt32
          baseType := base, genericParameters, customAttributes
          interfaces := Reading.nonempty interfaces
          layout := d.layout.map fun l => ⟨Int32.ofNat l.packingSize.toNat, l.classSize.toInt32⟩
          nestedTypes := none, fields := none, methods := none, properties := none, events := none })
        TypeData.uses :=
    (typeTrees s _).bind fun _ => (genericParameters s _).bind fun _ =>
      (customAttributes s _).bind fun _ => pure (by simp +contextual [TypeData.uses])
  refine ite ?_ ?_
  · exact (pure (by simp)).bind rest
  · exact ((typeTree s _).map (by simp)).bind rest

theorem fieldData (d : FieldDef) : Covered us (Reading.fieldData s d) FieldData.uses :=
  (customAttributes s _).bind fun _ => pure (by simp [FieldData.uses])

theorem implMap (name : Bytes) (i : Live.ImplMap) : Covered us (Reading.implMap name i) fun _ => [] := by
  unfold Reading.implMap
  split
  · exact pure (by simp)
  · exact refuse

theorem methodData (d : MethodDef) : Covered us (Reading.methodData s d) MethodData.uses := by
  refine (mapM _ fun p => parameter s p).bind fun _ => (mapM _ fun r => methodToken s r).bind fun _ =>
    (genericParameters s _).bind fun _ => (customAttributes s _).bind fun _ =>
      options.bind fun _ => ite ?_ ?_
  · exact (option_mapM _ fun b => body s b).bind fun _ =>
      (option_mapM _ fun i => implMap _ i).bind fun _ =>
        pure (by simp +contextual [MethodData.uses])
  · exact (pure (v := usesOf MethodBody.uses) (by simp)).bind fun _ =>
      (option_mapM _ fun i => implMap _ i).bind fun _ =>
        pure (by simp +contextual [MethodData.uses])

/-! ### Entities -/

theorem checkLevel {highest asked : Level} : Covered us (Reading.checkLevel highest asked) fun _ => [] :=
  ite refuse (pure (by simp))

/-- The data of an entity that is covered. -/
theorem requireData {ι δ : Type} [Named ι] {e : Entity ι δ} {f : δ → List Use}
    (h : Entails us (usesOf f e.data?)) :
    Covered us (MonadExcept.ofExcept e.requireData : Reading δ) f := by
  cases e with
  | reference id => exact throw
  | definition id d => exact pure (by simpa [Entity.data?] using h)

theorem field (f : Option FieldId) (level : Level) :
    Covered us (Reading.field s f level) (Token.uses .field) := by
  cases f with
  | none => exact refuse
  | some f =>
      refine checkLevel.bind fun _ => (fieldIdentity s f).bind fun id =>
        (registerField (e := .reference id) (by simp)).bind fun r => ite ?_ ?_
      · exact pure (by simp)
      · exact (fieldData s _).bind fun d => token (registerField (e := .definition id d) (by
          simp +contextual))

theorem method (m : Option MethodId) (level : Level) :
    Covered us (Reading.method s m level) (Token.uses .method) := by
  cases m with
  | none => exact refuse
  | some m =>
      refine checkLevel.bind fun _ => (methodIdentity s m).bind fun id =>
        (registerMethod (e := .reference id) (by simp)).bind fun r => ite ?_ ?_
      · exact pure (by simp)
      · exact (methodData s _).bind fun d => token (registerMethod (e := .definition id d) (by
          simp +contextual))

theorem fields (fs : List (Option FieldId)) (level : Level) :
    Covered us (Reading.fields s fs level) fun ts => ts.flatMap (Token.uses .field) :=
  mapM fs fun f => field s f level

theorem methods (ms : List (Option MethodId)) (level : Level) :
    Covered us (Reading.methods s ms level) fun ts => ts.flatMap (Token.uses .method) :=
  mapM ms fun m => method s m level

/-- What is stored under the token of a type has its tokens on record, so it may be stored again with its children. -/
theorem children (t : TypeId) (k : Token) (nested : List Token) :
    Covered (us ++ nested.flatMap (Token.uses .type)) (Reading.children s t k nested) fun _ => [] := by
  refine (fields s _ _).bind fun _ => (methods s _ _).bind fun _ =>
    (mapM _ fun p => property s p).bind fun _ => (mapM _ fun e => event s e).bind fun _ =>
      get.bind fun ρ => ?_
  cases h : ρ.catalog.types.get k with
  | error _ => exact refuse
  | ok e =>
      have stored : Entails ρ.catalog.uses (e.uses TypeIdentity.uses TypeData.uses) := by
        intro c hc
        exact (Catalog.covers_uses.1 hc).1 e (TokenMap.mem_values_of_get? (TokenMap.get?_of_get h))
      refine (requireData (e := e) (f := TypeData.uses) ?_).bind fun d => ?_
      · intro c hc
        exact (Catalog.covers_append.1 (stored c (Catalog.covers_append.1 hc).2)).2
      · refine (registerType (e := .definition e.identity _) ?_).bind fun _ => pure (by simp)
        simp +contextual [TypeIdentity.uses, TypeData.uses]

theorem typeWithin (depth : Nat) : ∀ (t : Option TypeId) (level : Level) {us : List Use},
    Covered us (Reading.typeWithin s depth t level) (Token.uses .type) := by
  induction depth with
  | zero => exact fun _ _ _ => throw
  | succ depth ih =>
      intro t level us
      cases t with
      | none => exact refuse
      | some t =>
          -- what follows the definition, whether that has just been read or was on record before
          have rest {us : List Use} (r : Registered) (h : Entails us (r.token.uses .type)) :
              Covered us (do
                if level ≤ .definition then return r.token
                let nested ← (s.typeDef t).nestedTypes.mapM fun n =>
                  Reading.typeWithin s depth (some n) level
                Reading.children s t r.token nested
                return r.token) (Token.uses .type) := by
            refine ite (pure h) ?_
            exact (mapM _ fun n => ih (some n) level).bind fun _ => (children s t r.token _).bind fun _ =>
              pure fun c hc => h c (by simp only [Catalog.covers_append] at hc; exact hc.1.1)
          refine checkLevel.bind fun _ => (checkType s t).bind fun _ =>
            (registerType (e := .reference _) (by simp [TypeIdentity.uses])).bind fun r =>
              ite (pure (by simp)) (ite ?_ ?_)
          · exact (typeData s _).bind fun d =>
              (registerType (e := .definition _ d) (by simp +contextual [TypeIdentity.uses])).bind
                fun _ => rest r (by simp +contextual)
          · exact rest r (by simp)

theorem type (t : Option TypeId) (level : Level) :
    Covered us (Reading.type s t level) (Token.uses .type) :=
  typeWithin s _ t level

theorem types (ts : List (Option TypeId)) (level : Level) :
    Covered us (Reading.types s ts level) fun ks => ks.flatMap (Token.uses .type) :=
  mapM ts fun t => type s t level

theorem specification (t : Option TypeSig) :
    Covered us (Reading.specification s t) (SigTree.uses .type) := by
  cases t with
  | none => exact refuse
  | some t => exact typeSigTree s t

theorem serve (q : Reader.Request) : Covered us (Reader.serve s q) fun _ => [] := by
  cases q with
  | type t level => exact (type s t level).bind fun _ => pure (by simp)
  | field f level => exact (field s f level).bind fun _ => pure (by simp)
  | method m level => exact (method s m level).bind fun _ => pure (by simp)
  | types ts level => exact (types s ts level).bind fun _ => pure (by simp)
  | fields fs level => exact (fields s fs level).bind fun _ => pure (by simp)
  | methods ms level => exact (methods s ms level).bind fun _ => pure (by simp)
  | specification t => exact (specification s t).bind fun _ => pure (by simp)

end Covered

namespace Reader

theorem closed_start (i : ImageId) (o : Options) : (start i o).Closed where
  catalog := Catalog.covers_nil
  types := by rintro _ ⟨⟩
  fields := by rintro _ ⟨⟩
  methods := by rintro _ ⟨⟩

theorem Closed.after {ρ : Reader} (h : ρ.Closed) (s : Store) (q : Request) : (ρ.after s q).Closed :=
  (Covered.serve s q ρ h Catalog.covers_nil).1

theorem Closed.afterAll {ρ : Reader} (h : ρ.Closed) (s : Store) (qs : List Request) :
    (ρ.afterAll s qs).Closed := by
  induction qs generalizing ρ with
  | nil => exact h
  | cons q qs ih => exact ih (h.after s q)

/-- No token dangles in what a reader has recorded, whatever it was asked for and whether or not it refused. -/
theorem closed_afterAll (s : Store) (i : ImageId) (o : Options) (qs : List Request) :
    ((start i o).afterAll s qs).catalog.Closed :=
  ((closed_start i o).afterAll s qs).catalog

end Reader

end CilCatalog
