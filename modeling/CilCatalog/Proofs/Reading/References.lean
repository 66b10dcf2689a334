import CilCatalog.Proofs.Reading.Steady

/-!
# Everything that definitions refer to is read steadily

One lemma for each function that reads references or the parts of definitions.
-/

namespace CilCatalog

open Live

/-! ### What depends on the reader -/

section Gives

variable {s : Store} {ρ ρ' : Reader}

theorem gives_options {o : Options} :
    Gives Reading.options ρ o ρ' ↔ o = ρ.catalog.options ∧ ρ' = ρ := by
  unfold Reading.options
  rw [gives_bind]
  constructor
  · rintro ⟨_, _, hg, hp⟩
    obtain ⟨rfl, rfl⟩ := gives_get.1 hg
    exact gives_pure.1 hp
  · rintro ⟨rfl, rfl⟩
    exact ⟨ρ', ρ', gives_get.2 ⟨rfl, rfl⟩, gives_pure.2 ⟨rfl, rfl⟩⟩

theorem gives_checkType {t : TypeId} {u : Unit} :
    Gives (Reading.checkType s t) ρ u ρ' ↔ (s.typeDef t).image = ρ.image ∧ ρ' = ρ := by
  unfold Reading.checkType
  rw [gives_bind]
  constructor
  · rintro ⟨_, _, hg, h⟩
    obtain ⟨rfl, rfl⟩ := gives_get.1 hg
    dsimp only at h
    split at h
    · next hi => exact ⟨hi, (gives_pure.1 h).2⟩
    · exact absurd h gives_throw
  · rintro ⟨hi, rfl⟩
    refine ⟨ρ', ρ', gives_get.2 ⟨rfl, rfl⟩, ?_⟩
    dsimp only
    rw [if_pos hi]
    exact gives_pure.2 ⟨rfl, rfl⟩

theorem gives_declaringType {what : String} {name : Bytes} {d : Option TypeId} {t : TypeId} :
    Gives (Reading.declaringType s what name d) ρ t ρ' ↔
      d = some t ∧ (s.typeDef t).image = ρ.image ∧ ρ' = ρ := by
  unfold Reading.declaringType
  rw [gives_bind]
  constructor
  · rintro ⟨_, _, hg, h⟩
    obtain ⟨rfl, rfl⟩ := gives_get.1 hg
    cases d with
    | none => exact absurd h gives_throw
    | some t' =>
        dsimp only at h
        split at h
        · next hi =>
            obtain ⟨rfl, rfl⟩ := gives_pure.1 h
            exact ⟨rfl, hi, rfl⟩
        · exact absurd h gives_throw
  · rintro ⟨rfl, hi, rfl⟩
    refine ⟨ρ', ρ', gives_get.2 ⟨rfl, rfl⟩, ?_⟩
    dsimp only
    rw [if_pos hi]
    exact gives_pure.2 ⟨rfl, rfl⟩

theorem gives_checkConvention {raw : UInt8} {u : Unit} :
    Gives (Reading.checkConvention raw) ρ u ρ' ↔
      CallingConvention.isMethodLikeRaw raw = true ∧ ρ' = ρ := by
  unfold Reading.checkConvention
  split
  · next like => simp [gives_pure, like]
  · next unlike =>
      refine iff_of_false (fun h => ?_) fun h => unlike h.1
      split at h <;> exact gives_throw h

/-- A method or property with a calling convention of these is read by its parts. -/
theorem callSigTree_method {raw : UInt8} {h : CallingConvention.isMethodOrPropertyRaw raw = true}
    (hlike : CallingConvention.isMethodLikeRaw raw = true) (s : Store) (n : UInt32) (t : TypeSig)
    (params after : List TypeSig) :
    Reading.callSigTree s (.method raw h n t params after) = do
      let ret ← Reading.typeSigTree s t
      let ps ← Reading.typeSigTrees s params
      let vs ← Reading.typeSigTrees s after
      return .callSig (raw &&& CallingConvention.mask)
        (Reading.flagsTree raw :: Reading.genericTrees raw n ++
          Reading.lengthTree (ps ++ vs) :: ret :: Reading.parameterTrees ps vs) := by
  rw [Reading.callSigTree, Reading.checkConvention, if_pos hlike, pure_bind]

/-- Asking whether a type is of the module changes nothing. -/
theorem checkType_still (s : Store) (t : TypeId) (ρ : Reader) : (Reading.checkType s t ρ).2 = ρ := by
  rw [Reading.checkType, run_bind_ok (x := MonadState.get) (v := ρ) rfl]
  split <;> rfl

/-- Asking for the type around a member changes nothing. -/
theorem declaringType_still (s : Store) (what : String) (name : Bytes) (d : Option TypeId)
    (ρ : Reader) : (Reading.declaringType s what name d ρ).2 = ρ := by
  rw [Reading.declaringType, run_bind_ok (x := MonadState.get) (v := ρ) rfl]
  cases d with
  | none => rfl
  | some t =>
      dsimp only
      split <;> rfl

end Gives

namespace Steady

variable {m : Source} (s : Store)

/-! ### Types -/

theorem checkType (t : TypeId) : Steady m (Reading.checkType s t) :=
  of_unchanged (checkType_still s t) fun hs hx ρ'' hs' =>
    gives_checkType.2 ⟨by rw [(gives_checkType.1 hx).1, hs.image, hs'.image], rfl⟩

theorem definedType (t : TypeId) : Steady m (Reading.definedType s t) :=
  (checkType s t).bind fun _ => typeReference (definitionIdentity_normal s t)

theorem referredType (ns name : Bytes) (scope : Row) :
    Steady m (Reading.referredType ns name scope) := by
  unfold Reading.referredType
  split
  · next a _ =>
      exact options.bind fun o => typeReference (referenceIdentity_normal o a ns name scope)
  · exact refuse _

theorem namedType : ∀ r : Row, Steady m (Reading.namedType s r)
  | .null            => refuse _
  | .typeDef t       => definedType s t
  | .typeRef _ _ _ _ => referredType _ _ _
  | .assemblyRef _ _ | .moduleRef _ _ | .typeSpec _ _ | .fieldDef _ | .methodDef _
  | .memberRef _ _ _ _ | .methodSpec _ _ _ => refuse _

/-! ### Signatures -/

theorem checkConvention (raw : UInt8) : Steady m (Reading.checkConvention raw) := by
  unfold Reading.checkConvention
  exact ite (pure _) (ite (throw _) (refuse _))

mutual

theorem typeTree : ∀ r : Row, Steady m (Reading.typeTree s r)
  | .typeSpec _ t => typeSigTree t
  | .null | .typeDef _ | .typeRef _ _ _ _ | .assemblyRef _ _ | .moduleRef _ _ | .fieldDef _
  | .methodDef _ | .memberRef _ _ _ _ | .methodSpec _ _ _ => (namedType s _).bind fun _ => pure _

theorem typeSigTree : ∀ t : TypeSig, Steady m (Reading.typeSigTree s t)
  | .null             => refuse _
  | .leaf _ _         => pure _
  | .wrapper _ t      => (typeSigTree t).bind fun _ => pure _
  | .fnPtr c          => (callSigTree c).bind fun _ => pure _
  | .named _ r        => (namedType s r).bind fun _ => pure _
  | .generic _ _      => pure _
  | .array t _ _ _    => (typeSigTree t).bind fun _ => pure _
  | .genericInst t as => (typeSigTree t).bind fun _ => (typeSigTrees as).bind fun _ => pure _
  | .valueArray t _   => (typeSigTree t).bind fun _ => pure _
  | .modifier _ r t   => (typeTree r).bind fun _ => (typeSigTree t).bind fun _ => pure _
  | .module _ t       => (typeSigTree t).bind fun _ => pure _

theorem typeSigTrees : ∀ ts : List TypeSig, Steady m (Reading.typeSigTrees s ts)
  | []      => pure _
  | t :: ts => (typeSigTree t).bind fun _ => (typeSigTrees ts).bind fun _ => pure _

theorem callSigTree : ∀ c : CallSig, Steady m (Reading.callSigTree s c)
  | .null               => refuse _
  | .method raw _ _ t ps vs =>
      (checkConvention raw).bind fun _ => (typeSigTree t).bind fun _ =>
        (typeSigTrees ps).bind fun _ => (typeSigTrees vs).bind fun _ => pure _
  | .field t            => (typeSigTree t).bind fun _ => pure _
  | .locals ts          => (typeSigTrees ts).bind fun _ => pure _
  | .inst ts            => (typeSigTrees ts).bind fun _ => pure _

end

/-! ### Fields and methods -/

theorem memberIdentity (name : Bytes) (type : Row) (c : CallSig) :
    Steady m (Reading.memberIdentity s name type c) :=
  (typeTree s type).bind fun _ => (callSigTree s c).bind fun _ => pure _

theorem declaringType (what : String) (name : Bytes) (d : Option TypeId) :
    Steady m (Reading.declaringType s what name d) :=
  of_unchanged (declaringType_still s what name d) fun hs hx ρ'' hs' => by
    obtain ⟨rfl, hi, -⟩ := gives_declaringType.1 hx
    exact gives_declaringType.2 ⟨rfl, by rw [hi, hs.image, hs'.image], rfl⟩

theorem fieldIdentity (f : FieldId) : Steady m (Reading.fieldIdentity s f) :=
  (declaringType s _ _ _).bind fun _ => memberIdentity s _ _ _

theorem methodIdentity (f : MethodId) : Steady m (Reading.methodIdentity s f) :=
  (declaringType s _ _ _).bind fun _ => memberIdentity s _ _ _

theorem definedField (f : FieldId) : Steady m (Reading.definedField s f) :=
  (fieldIdentity s f).bind fun _ => fieldReference

theorem definedMethod (f : MethodId) : Steady m (Reading.definedMethod s f) :=
  (methodIdentity s f).bind fun _ => methodReference

theorem parentType (what : String) (name : Bytes) (r : Row) :
    Steady m (Reading.parentType what name r) := by
  unfold Reading.parentType
  split
  · exact throw _
  · exact refuse _
  · exact ite (pure _) (refuse _)

theorem referredField (name : Bytes) (c : CallSig) (parent : Row) :
    Steady m (Reading.referredField s name c parent) := by
  have rest : Steady m (do
      let type ← Reading.parentType "Field" name parent
      let id ← Reading.memberIdentity s name type c
      Reading.fieldReference id) :=
    (parentType _ _ _).bind fun type => (memberIdentity s name type c).bind fun _ => fieldReference
  exact (ofExcept _).bind fun b => ite rest ((refuse _).bind fun _ => rest)

theorem referredMethod (name : Bytes) (c : CallSig) (parent : Row) :
    Steady m (Reading.referredMethod s name c parent) := by
  have rest : Steady m (do
      let type ← Reading.parentType "Method" name parent
      let id ← Reading.memberIdentity s name type c
      Reading.methodReference id) :=
    (parentType _ _ _).bind fun type => (memberIdentity s name type c).bind fun _ => methodReference
  have checked : Steady m (if parent.kind? = some .methodDef then
      Reading.refuse (.callSite name) >>= fun _ : PUnit => (do
        let type ← Reading.parentType "Method" name parent
        let id ← Reading.memberIdentity s name type c
        Reading.methodReference id)
      else do
        let type ← Reading.parentType "Method" name parent
        let id ← Reading.memberIdentity s name type c
        Reading.methodReference id) := ite ((refuse _).bind fun _ => rest) rest
  exact (ofExcept _).bind fun b => ite checked ((refuse _).bind fun _ => checked)

theorem fieldToken : ∀ r : Row, Steady m (Reading.fieldToken s r)
  | .null                => refuse _
  | .fieldDef f          => definedField s f
  | .memberRef _ _ _ _   => referredField s _ _ _
  | .typeSpec _ _ | .typeDef _ | .typeRef _ _ _ _ | .assemblyRef _ _ | .moduleRef _ _
  | .methodDef _ | .methodSpec _ _ _ => refuse _

theorem methodToken : ∀ r : Row, Steady m (Reading.methodToken s r)
  | .null                => refuse _
  | .methodDef f         => definedMethod s f
  | .memberRef _ _ _ _   => referredMethod s _ _ _
  | .typeSpec _ _ | .typeDef _ | .typeRef _ _ _ _ | .assemblyRef _ _ | .moduleRef _ _
  | .fieldDef _ | .methodSpec _ _ _ => refuse _

/-! ### Parts of definitions -/

theorem customAttributes (as : List Live.CustomAttribute) :
    Steady m (Reading.customAttributes s as) :=
  options.bind fun _ =>
    ite ((mapM as fun a => (methodToken s a.constructor).bind fun _ => pure _).bind fun _ => pure _)
      (pure _)

theorem typeTrees (rs : List Row) : Steady m (Reading.typeTrees s rs) := mapM rs (typeTree s)

theorem genericParameter (p : GenericParam) : Steady m (Reading.genericParameter s p) :=
  (typeTrees s p.constraints).bind fun _ => pure _

theorem genericParameters (ps : List GenericParam) : Steady m (Reading.genericParameters s ps) :=
  (mapM ps (genericParameter s)).bind fun _ => pure _

theorem parameter (p : ParamDef) : Steady m (Reading.parameter s p) :=
  (customAttributes s p.customAttributes).bind fun _ => pure _

theorem accessor : ∀ o : Option MethodId, Steady m (Reading.accessor s o)
  | none   => pure none
  | some f => (definedMethod s f).bind fun _ => pure _

theorem property (p : PropertyDef) : Steady m (Reading.property s p) :=
  (callSigTree s p.signature).bind fun _ => (accessor s p.getMethod).bind fun _ =>
    (accessor s p.setMethod).bind fun _ => (customAttributes s p.customAttributes).bind fun _ =>
      pure _

theorem event (e : EventDef) : Steady m (Reading.event s e) :=
  (typeTree s e.type).bind fun _ => (accessor s e.addMethod).bind fun _ =>
    (accessor s e.removeMethod).bind fun _ => (accessor s e.invokeMethod).bind fun _ =>
      (customAttributes s e.customAttributes).bind fun _ => pure _

/-! ### Method bodies -/

theorem targetIndex (size : Nat) : ∀ t : Target, Steady m (Reading.targetIndex size t)
  | .inside _         => ite (pure _) (refuse _)
  | .null | .outside => refuse _

theorem boundaryIndex (size : Nat) : ∀ t : Target, Steady m (Reading.boundaryIndex size t)
  | .null     => pure _
  | .inside n => targetIndex size (.inside n)
  | .outside  => targetIndex size .outside

theorem rowOperand : ∀ r : Row, Steady m (Reading.rowOperand s r)
  | .null              => refuse _
  | .fieldDef _        => (fieldToken s _).bind fun _ => pure _
  | .methodDef _       => (methodToken s _).bind fun _ => pure _
  | .memberRef _ _ _ _ =>
      (ofExcept _).bind fun _ => ite ((fieldToken s _).bind fun _ => pure _)
        ((methodToken s _).bind fun _ => pure _)
  | .methodSpec _ _ _  =>
      (methodToken s _).bind fun _ => (callSigTree s _).bind fun _ => pure _
  | .typeSpec n t       => (typeTree s (.typeSpec n t)).bind fun _ => pure _
  | .typeDef t          => (typeTree s (.typeDef t)).bind fun _ => pure _
  | .typeRef i ns n r   => (typeTree s (.typeRef i ns n r)).bind fun _ => pure _
  | .assemblyRef _ _ | .moduleRef _ _ => refuse _

theorem tokenOperand (o : Live.Operand) : Steady m (Reading.tokenOperand s o) := by
  unfold Reading.tokenOperand
  split
  · exact rowOperand s _
  · exact ite (refuse _) (ite (callSigTree s _) (refuse _))
  · exact refuse _

theorem operand (size : Nat) (op : OpCode) (o : Live.Operand) :
    Steady m (Reading.operand s size op o) := by
  unfold Reading.operand
  split
  all_goals first
    | exact pure _
    | exact refuse _
    | exact (targetIndex size _).bind fun _ => pure _
    | exact (mapM _ (targetIndex size)).bind fun _ => pure _
    | exact (tokenOperand s _).bind fun _ => pure _

theorem instruction (size : Nat) (i : Live.Instruction) : Steady m (Reading.instruction s size i) :=
  (operand s size _ _).bind fun _ => pure _

theorem handler (size : Nat) (h : Live.ExceptionHandler) : Steady m (Reading.handler s size h) :=
  (targetIndex size _).bind fun _ => (boundaryIndex size _).bind fun _ =>
    (boundaryIndex size _).bind fun _ => (targetIndex size _).bind fun _ =>
      (boundaryIndex size _).bind fun _ =>
        ite ((pure none).bind fun _ => pure _) (((typeTree s _).map some).bind fun _ => pure _)

theorem body (b : Live.MethodBody) : Steady m (Reading.body s b) :=
  (mapM _ (instruction s _)).bind fun _ => (mapM _ (handler s _)).bind fun _ =>
    (typeSigTrees s _).bind fun _ => pure _

/-! ### Definition data -/

theorem typeData (d : TypeDef) : Steady m (Reading.typeData s d) := by
  refine ite ((pure none).bind fun _ => ?_) (((typeTree s _).map some).bind fun _ => ?_)
  all_goals
    exact (typeTrees s _).bind fun _ => (genericParameters s _).bind fun _ =>
      (customAttributes s _).bind fun _ => pure _

theorem fieldData (d : FieldDef) : Steady m (Reading.fieldData s d) :=
  (customAttributes s _).bind fun _ => pure _

theorem implMap (name : Bytes) (i : Live.ImplMap) : Steady m (Reading.implMap name i) := by
  unfold Reading.implMap
  split
  · exact pure _
  · exact refuse _

theorem methodData (d : MethodDef) : Steady m (Reading.methodData s d) := by
  refine (mapM _ (parameter s)).bind fun _ => (mapM _ (methodToken s)).bind fun _ =>
    (genericParameters s _).bind fun _ => (customAttributes s _).bind fun _ =>
      options.bind fun _ => ite ((option_mapM _ (body s)).bind fun _ => ?_) ((pure none).bind fun _ => ?_)
  all_goals exact (option_mapM _ (implMap _)).bind fun _ => pure _

end Steady

end CilCatalog
