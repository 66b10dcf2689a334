import CilCatalog.Proofs.Live.Inside
import CilCatalog.Proofs.Live.Nesting
import CilCatalog.Proofs.Reading.Orderly

/-!
# Readings of incomplete modules

Wherever a module may lack something, a reading that comes upon the gap stops with a fault, except in one place: a member reference is asked of what kind its signature and its parent are before it is seen whether it has them.  And a property whose flags make its signature pass for the type arguments of a method is taken for these.  No other contract is ever broken, and there is one lemma for each function that reads.

* `Row.Lacking`, `Source.Incomplete`: member references that lack a part.
* `Tolerant`: a computation breaks no contract but these, and only where the module is incomplete or has such a signature.
* `TolerantFrom.children`: what is looked up to be stored with its children is a definition.
* `TolerantFrom.typeWithin`: nesting comes to an end, unless a type lies within itself.
-/

namespace CilCatalog

open Live

/-! ### Incomplete modules -/

/-- A member reference without a signature or without a parent. -/
def Live.Row.Lacking : Row → Prop
  | .memberRef _ _ signature parent => signature.isNull = true ∨ parent.isNull = true
  | _                               => False

/-- Some definition of the module holds a member reference that lacks a part. -/
def Source.Incomplete (m : Source) : Prop := ∃ r, m.store.Occurs m.image r ∧ r.Lacking

/-- The signatures are those of the module, or among `xs`, which a request has brought along. -/
def Source.Knows (m : Source) (xs ys : List Signature) : Prop :=
  ∀ y ∈ ys, m.store.Signs m.image y ∨ y ∈ xs

/-- There is a result or a fault; or else the kind of something has been asked for that an incomplete module lacks, or a signature has been taken for what it is not. -/
def Excused (m : Source) (xs : List Signature) {φ α : Type} (x : Except (Failure φ) α) : Prop :=
  ∀ e, x = .error (.internal e) →
    (.internal e : Failure φ) = nothingToAsk ∧ m.Incomplete ∨
    (.internal e : Failure φ) = mistaken ∧ ∃ c : CallSig, m.Knows xs [.call c] ∧ c.Mistakable

/-- Whatever has been recorded of the module, the computation breaks no contract without such an excuse, and stays with the module. -/
def Tolerant (m : Source) (xs : List Signature) {α : Type} (x : Reading α) : Prop :=
  ∀ ρ : Reader, ρ.image = m.image → Excused m xs (x ρ).1 ∧ (x ρ).2.image = m.image

/-- Started by an orderly reader, the computation breaks no contract without such an excuse. -/
def TolerantFrom (m : Source) (xs : List Signature) (ρ : Reader) {α : Type} (x : Reading α) : Prop :=
  Orderly m ρ → Excused m xs (x ρ).1

variable {m : Source} {xs : List Signature} {α β : Type}

namespace Source

theorem knows_append {ys zs : List Signature} :
    m.Knows xs (ys ++ zs) ↔ m.Knows xs ys ∧ m.Knows xs zs := List.forall_mem_append

theorem knows_cons {y : Signature} {ys : List Signature} :
    m.Knows xs (y :: ys) ↔ m.Knows xs [y] ∧ m.Knows xs ys := by
  rw [← List.singleton_append, knows_append]

theorem knows_flatMap {as : List α} {f : α → List Signature} :
    m.Knows xs (as.flatMap f) ↔ ∀ a ∈ as, m.Knows xs (f a) := by
  simp only [Knows, List.mem_flatMap]
  constructor
  · exact fun h a ha y hy => h y ⟨a, ha, hy⟩
  · rintro h y ⟨a, ha, hy⟩
    exact h a ha y hy

/-- What is inside the rows that occur is known. -/
theorem Has.knows {r : Row} (h : m.Has r.rows) : m.Knows xs r.inside :=
  fun x hx => .inl (Store.Signs.inside h x hx)

end Source

theorem Excused.bind {x : Reading α} {f : α → Reading β} {ρ : Reader} (hx : Excused m xs (x ρ).1)
    (hf : ∀ a ρ₁, x ρ = (.ok a, ρ₁) → Excused m xs (f a ρ₁).1) :
    Excused m xs ((x >>= f) ρ).1 := by
  cases h : x ρ with
  | mk r ρ₁ =>
      cases r with
      | error e =>
          rw [run_bind_error h]
          rintro e' ⟨⟩
          exact hx e' (by rw [h])
      | ok a =>
          rw [run_bind_ok h]
          exact hf a ρ₁ h

namespace Tolerant

variable {x : Reading α}

/-! ### Computations -/

theorem pure {a : α} : Tolerant m xs (pure a : Reading α) := fun _ hi => ⟨nofun, hi⟩

theorem throw {f : Failure ReadFault} (h : Excused m xs (.error f : Except (Failure ReadFault) α)) :
    Tolerant m xs (throw f : Reading α) := fun _ hi => ⟨h, hi⟩

theorem refuse {f : ReadFault} : Tolerant m xs (Reading.refuse f : Reading α) := throw nofun

theorem ask (h : m.Incomplete) : Tolerant m xs (MonadExcept.throw nothingToAsk : Reading α) :=
  throw fun _ he => .inl ⟨(Except.error.inj he).symm, h⟩

theorem mistake {c : CallSig} (h : m.Knows xs [.call c]) (hc : c.Mistakable) :
    Tolerant m xs (MonadExcept.throw mistaken : Reading α) :=
  throw fun _ he => .inr ⟨(Except.error.inj he).symm, c, h, hc⟩

/-- The second computation may depend on how the first has ended. -/
theorem bind_of_gives {f : α → Reading β} (hx : Tolerant m xs x)
    (hf : ∀ {a ρ ρ'}, ρ.image = m.image → Gives x ρ a ρ' → Tolerant m xs (f a)) :
    Tolerant m xs (x >>= f) := by
  intro ρ hi
  obtain ⟨excused, image⟩ := hx ρ hi
  refine ⟨excused.bind fun a ρ₁ h => (hf hi h ρ₁ (by rw [← image, h])).1, ?_⟩
  cases h : x ρ with
  | mk r ρ₁ =>
      rw [h] at image
      cases r with
      | error e => rwa [run_bind_error h]
      | ok a =>
          rw [run_bind_ok h]
          exact (hf hi h ρ₁ image).2

theorem bind {f : α → Reading β} (hx : Tolerant m xs x) (hf : ∀ a, Tolerant m xs (f a)) :
    Tolerant m xs (x >>= f) := hx.bind_of_gives fun _ _ => hf _

theorem map (hx : Tolerant m xs x) (f : α → β) : Tolerant m xs (f <$> x) := by
  rw [map_eq_pure_bind]
  exact hx.bind fun _ => pure

theorem ite {p : Prop} [Decidable p] {y : Reading α} (hx : Tolerant m xs x)
    (hy : Tolerant m xs y) : Tolerant m xs (if p then x else y) := by
  split
  · exact hx
  · exact hy

theorem mapM {f : α → Reading β} {as : List α} (hf : ∀ a ∈ as, Tolerant m xs (f a)) :
    Tolerant m xs (as.mapM f) := by
  induction as with
  | nil => exact pure
  | cons a as ih =>
      rw [List.forall_mem_cons] at hf
      rw [List.mapM_cons]
      exact hf.1.bind fun _ => (ih hf.2).bind fun _ => pure

theorem optional {f : α → Reading β} {o : Option α} (hf : ∀ a ∈ o.toList, Tolerant m xs (f a)) :
    Tolerant m xs (o.mapM f) := by
  cases o with
  | none => exact pure
  | some a => exact (hf a List.mem_cons_self).map some

theorem get : Tolerant m xs (MonadState.get : Reading Reader) := fun _ hi => ⟨nofun, hi⟩

theorem options : Tolerant m xs Reading.options := get.bind fun _ => pure

/-! ### Registering -/

theorem registering
    {f : Registry → Catalog → Except RegistryFault (Registered × Registry × Catalog)} :
    Tolerant m xs (Reading.registering f) := by
  refine get.bind_of_gives fun {ρ _ _} hi hg => ?_
  obtain ⟨rfl, -⟩ := gives_get.1 hg
  split
  · exact refuse
  · exact Tolerant.bind (fun _ _ => ⟨nofun, hi⟩) fun _ => pure

theorem typeReference {id : TypeIdentity} : Tolerant m xs (Reading.typeReference id) :=
  registering.bind fun _ => pure

theorem fieldReference {id : MemberIdentity} : Tolerant m xs (Reading.fieldReference id) :=
  registering.bind fun _ => pure

theorem methodReference {id : MemberIdentity} : Tolerant m xs (Reading.methodReference id) :=
  registering.bind fun _ => pure

theorem checkLevel {highest asked : Level} : Tolerant m xs (Reading.checkLevel highest asked) :=
  ite refuse pure

variable (s : Store)

/-! ### Types -/

theorem checkType (t : TypeId) : Tolerant m xs (Reading.checkType s t) :=
  get.bind fun _ => ite pure refuse

theorem definedType (t : TypeId) : Tolerant m xs (Reading.definedType s t) :=
  (checkType s t).bind fun _ => typeReference

theorem referredType (ns name : Bytes) (scope : Row) :
    Tolerant m xs (Reading.referredType ns name scope) := by
  unfold Reading.referredType
  split
  · exact options.bind fun _ => typeReference
  · exact refuse

theorem namedType : ∀ r : Row, Tolerant m xs (Reading.namedType s r)
  | .null            => refuse
  | .typeDef t       => definedType s t
  | .typeRef _ _ _ _ => referredType _ _ _
  | .assemblyRef _ _ | .moduleRef _ _ | .typeSpec _ _ | .fieldDef _ | .methodDef _
  | .memberRef _ _ _ _ | .methodSpec _ _ _ => refuse

/-! ### Signatures -/

/-- A convention that is no convention of methods or properties is refused, unless it passes for that of type arguments. -/
theorem checkConvention {raw : UInt8} {h : CallingConvention.isMethodOrPropertyRaw raw = true}
    {n : UInt32} {t : TypeSig} {ps vs : List TypeSig}
    (hc : m.Knows xs [.call (.method raw h n t ps vs)]) :
    Tolerant m xs (Reading.checkConvention raw) := by
  unfold Reading.checkConvention
  split
  · exact pure
  · split
    · next passes => exact mistake hc passes
    · exact refuse

mutual

theorem typeTree : ∀ r : Row, m.Knows xs r.inside → Tolerant m xs (Reading.typeTree s r)
  | .typeSpec _ t, h => typeSigTree t h
  | .null, _ | .typeDef _, _ | .typeRef _ _ _ _, _ | .assemblyRef _ _, _ | .moduleRef _ _, _
  | .fieldDef _, _ | .methodDef _, _ | .memberRef _ _ _ _, _ | .methodSpec _ _ _, _ =>
      (namedType s _).bind fun _ => pure

theorem typeSigTree : ∀ t : TypeSig, m.Knows xs t.inside → Tolerant m xs (Reading.typeSigTree s t)
  | .null, _             => refuse
  | .leaf _ _, _         => pure
  | .wrapper _ t, h      => (typeSigTree t (Source.knows_cons.1 h).2).bind fun _ => pure
  | .fnPtr c, h          => (callSigTree c (Source.knows_cons.1 h).2).bind fun _ => pure
  | .named _ r, _        => (namedType s r).bind fun _ => pure
  | .generic _ _, _      => pure
  | .array t _ _ _, h    => (typeSigTree t (Source.knows_cons.1 h).2).bind fun _ => pure
  | .genericInst t as, h =>
      have h := Source.knows_append.1 (Source.knows_cons.1 h).2
      (typeSigTree t h.1).bind fun _ => (typeSigTrees as h.2).bind fun _ => pure
  | .valueArray t _, h   => (typeSigTree t (Source.knows_cons.1 h).2).bind fun _ => pure
  | .modifier _ r t, h   =>
      have h := Source.knows_append.1 (Source.knows_cons.1 h).2
      (typeTree r h.1).bind fun _ => (typeSigTree t h.2).bind fun _ => pure
  | .module _ t, h       => (typeSigTree t (Source.knows_cons.1 h).2).bind fun _ => pure

theorem typeSigTrees : ∀ ts : List TypeSig, m.Knows xs (TypeSig.insideAll ts) →
    Tolerant m xs (Reading.typeSigTrees s ts)
  | [], _      => pure
  | t :: ts, h =>
      have h := Source.knows_append.1 h
      (typeSigTree t h.1).bind fun _ => (typeSigTrees ts h.2).bind fun _ => pure

theorem callSigTree : ∀ c : CallSig, m.Knows xs c.inside → Tolerant m xs (Reading.callSigTree s c)
  | .null, _                 => refuse
  | .method _ _ _ t ps vs, h =>
      have known := Source.knows_cons.1 h
      have parts := Source.knows_append.1 known.2
      have lists := Source.knows_append.1 parts.2
      (checkConvention known.1).bind fun _ => (typeSigTree t parts.1).bind fun _ =>
        (typeSigTrees ps lists.1).bind fun _ => (typeSigTrees vs lists.2).bind fun _ => pure
  | .field t, h              => (typeSigTree t (Source.knows_cons.1 h).2).bind fun _ => pure
  | .locals ts, h            => (typeSigTrees ts (Source.knows_cons.1 h).2).bind fun _ => pure
  | .inst ts, h              => (typeSigTrees ts (Source.knows_cons.1 h).2).bind fun _ => pure

end

/-! ### Fields and methods -/

theorem memberIdentity (name : Bytes) {type : Row} {c : CallSig} (ht : m.Knows xs type.inside)
    (hc : m.Knows xs c.inside) : Tolerant m xs (Reading.memberIdentity s name type c) :=
  (typeTree s type ht).bind fun _ => (callSigTree s c hc).bind fun _ => pure

theorem declaringType (what : String) (name : Bytes) (d : Option TypeId) :
    Tolerant m xs (Reading.declaringType s what name d) := by
  refine get.bind fun _ => ?_
  cases d with
  | none => exact refuse
  | some t => exact ite pure refuse

/-- Only a field that a type of the module declares has an identity, and its signature is one of the module's. -/
theorem fieldIdentity (f : FieldId) : Tolerant m xs (Reading.fieldIdentity m.store f) :=
  (declaringType m.store _ _ _).bind_of_gives fun {t _ _} hi hg => by
    obtain ⟨hdecl, himage, -⟩ := gives_declaringType.1 hg
    exact memberIdentity m.store _ (List.forall_mem_nil _) fun x hx =>
      .inl (.field t f (himage.trans hi) hdecl hx)

theorem methodIdentity (f : MethodId) : Tolerant m xs (Reading.methodIdentity m.store f) :=
  (declaringType m.store _ _ _).bind_of_gives fun {t _ _} hi hg => by
    obtain ⟨hdecl, himage, -⟩ := gives_declaringType.1 hg
    exact memberIdentity m.store _ (List.forall_mem_nil _) fun x hx =>
      .inl (.method t f (himage.trans hi) hdecl (List.mem_append_left _ hx))

theorem definedField (f : FieldId) : Tolerant m xs (Reading.definedField m.store f) :=
  (fieldIdentity f).bind fun _ => fieldReference

theorem definedMethod (f : MethodId) : Tolerant m xs (Reading.definedMethod m.store f) :=
  (methodIdentity f).bind fun _ => methodReference

/-! ### Member references -/

theorem ofFieldMember {c : CallSig} (h : c.isNull = true → m.Incomplete) :
    Tolerant m xs (MonadExcept.ofExcept c.ofFieldMember : Reading Bool) := by
  cases c with
  | null => exact ask (h rfl)
  | _ => exact pure

theorem ofMethodMember {c : CallSig} (h : c.isNull = true → m.Incomplete) :
    Tolerant m xs (MonadExcept.ofExcept c.ofMethodMember : Reading Bool) := by
  cases c with
  | null => exact ask (h rfl)
  | _ => exact pure

/-- The parent is taken as it is. -/
theorem parentType (what : String) (name : Bytes) {parent : Row}
    (h : parent.isNull = true → m.Incomplete) {f : Row → Reading α} (hf : Tolerant m xs (f parent)) :
    Tolerant m xs (Reading.parentType what name parent >>= f) := by
  unfold Reading.parentType
  split
  · exact (ask (h rfl)).bind_of_gives fun _ hg => absurd hg gives_throw
  · exact refuse.bind_of_gives fun _ hg => absurd hg gives_throw
  · split
    · exact pure.bind_of_gives fun _ hg => (gives_pure.1 hg).1 ▸ hf
    · exact refuse.bind_of_gives fun _ hg => absurd hg gives_throw

/-- The parts of a member reference are not missing, or that excuses a breach. -/
structure Parts (m : Source) (xs : List Signature) (c : CallSig) (parent : Row) : Prop where
  signatureKnown : m.Knows xs c.inside
  parentKnown : m.Knows xs parent.inside
  signature : c.isNull = true → m.Incomplete
  parent : parent.isNull = true → m.Incomplete

variable {c : CallSig} {parent : Row}

theorem referredField (name : Bytes) (h : Parts m xs c parent) :
    Tolerant m xs (Reading.referredField s name c parent) := by
  have rest : Tolerant m xs (do
      let type ← Reading.parentType "Field" name parent
      let id ← Reading.memberIdentity s name type c
      Reading.fieldReference id) :=
    parentType _ _ h.parent
      ((memberIdentity s name h.parentKnown h.signatureKnown).bind fun _ => fieldReference)
  exact (ofFieldMember h.signature).bind fun b => ite rest (Tolerant.bind refuse fun _ => rest)

theorem referredMethod (name : Bytes) (h : Parts m xs c parent) :
    Tolerant m xs (Reading.referredMethod s name c parent) := by
  have rest : Tolerant m xs (do
      let type ← Reading.parentType "Method" name parent
      let id ← Reading.memberIdentity s name type c
      Reading.methodReference id) :=
    parentType _ _ h.parent
      ((memberIdentity s name h.parentKnown h.signatureKnown).bind fun _ => methodReference)
  have checked : Tolerant m xs (if parent.kind? = some .methodDef then
      Reading.refuse (.callSite name) >>= fun _ : PUnit => (do
        let type ← Reading.parentType "Method" name parent
        let id ← Reading.memberIdentity s name type c
        Reading.methodReference id)
      else do
        let type ← Reading.parentType "Method" name parent
        let id ← Reading.memberIdentity s name type c
        Reading.methodReference id) := ite (Tolerant.bind refuse fun _ => rest) rest
  exact (ofMethodMember h.signature).bind fun b => ite checked (Tolerant.bind refuse fun _ => checked)

end Tolerant

/-- A member reference that is held by a definition has its parts, or the module is incomplete. -/
theorem Source.Has.parts {n : Nat} {name : Bytes} {c : CallSig} {parent : Row}
    (h : m.Has (Row.memberRef n name c parent).rows) : Tolerant.Parts m xs c parent := by
  obtain ⟨held, inner⟩ := Source.has_cons.1 h
  exact ⟨fun x hx => .inl (.row _ held hx), (Source.has_append.1 inner).2.knows,
    fun hc => ⟨_, held, .inl hc⟩, fun hp => ⟨_, held, .inr hp⟩⟩

namespace Tolerant

theorem fieldToken : ∀ {r : Row}, m.Has r.rows → Tolerant m xs (Reading.fieldToken m.store r)
  | .null, _               => refuse
  | .fieldDef f, _         => definedField f
  | .memberRef _ _ _ _, h  => referredField m.store _ h.parts
  | .typeSpec _ _, _ | .typeDef _, _ | .typeRef _ _ _ _, _ | .assemblyRef _ _, _
  | .moduleRef _ _, _ | .methodDef _, _ | .methodSpec _ _ _, _ => refuse

theorem methodToken : ∀ {r : Row}, m.Has r.rows → Tolerant m xs (Reading.methodToken m.store r)
  | .null, _               => refuse
  | .methodDef f, _        => definedMethod f
  | .memberRef _ _ _ _, h  => referredMethod m.store _ h.parts
  | .typeSpec _ _, _ | .typeDef _, _ | .typeRef _ _ _ _, _ | .assemblyRef _ _, _
  | .moduleRef _ _, _ | .fieldDef _, _ | .methodSpec _ _ _, _ => refuse

/-! ### Parts of definitions -/

theorem customAttributes {as : List Live.CustomAttribute}
    (h : m.Has (as.flatMap Live.CustomAttribute.rows)) :
    Tolerant m xs (Reading.customAttributes m.store as) :=
  options.bind fun _ => ite
    ((mapM fun a ha => (methodToken (Source.has_flatMap.1 h a ha)).bind fun _ => pure).bind
      fun _ => pure) pure

theorem typeTrees {rs : List Row} (h : m.Has (rs.flatMap Row.rows)) :
    Tolerant m xs (Reading.typeTrees m.store rs) :=
  mapM fun r hr => typeTree m.store r (Source.has_flatMap.1 h r hr).knows

theorem genericParameter {p : GenericParam} (h : m.Has p.rows) :
    Tolerant m xs (Reading.genericParameter m.store p) :=
  (typeTrees h).bind fun _ => pure

theorem genericParameters {ps : List GenericParam} (h : m.Has (ps.flatMap GenericParam.rows)) :
    Tolerant m xs (Reading.genericParameters m.store ps) :=
  (mapM fun p hp => genericParameter (Source.has_flatMap.1 h p hp)).bind fun _ => pure

theorem parameter {p : ParamDef} (h : m.Has p.rows) :
    Tolerant m xs (Reading.parameter m.store p) :=
  (customAttributes h).bind fun _ => pure

theorem accessor : ∀ o : Option MethodId, Tolerant m xs (Reading.accessor m.store o)
  | none   => pure
  | some f => (definedMethod f).bind fun _ => pure

theorem property {p : PropertyDef} (h : m.Has p.rows) (known : m.Knows xs p.signature.inside) :
    Tolerant m xs (Reading.property m.store p) :=
  (callSigTree m.store p.signature known).bind fun _ => (accessor p.getMethod).bind fun _ =>
    (accessor p.setMethod).bind fun _ =>
      (customAttributes (Source.has_append.1 h).2).bind fun _ => pure

theorem event {e : EventDef} (h : m.Has e.rows) : Tolerant m xs (Reading.event m.store e) :=
  (typeTree m.store e.type (Source.has_append.1 h).1.knows).bind fun _ =>
    (accessor e.addMethod).bind fun _ => (accessor e.removeMethod).bind fun _ =>
      (accessor e.invokeMethod).bind fun _ =>
        (customAttributes (Source.has_append.1 h).2).bind fun _ => pure

/-! ### Method bodies -/

theorem targetIndex (size : Nat) : ∀ t : Target, Tolerant m xs (Reading.targetIndex size t)
  | .inside _        => ite pure refuse
  | .null | .outside => refuse

theorem boundaryIndex (size : Nat) : ∀ t : Target, Tolerant m xs (Reading.boundaryIndex size t)
  | .null     => pure
  | .inside n => targetIndex size (.inside n)
  | .outside  => targetIndex size .outside

theorem rowOperand : ∀ {r : Row}, m.Has r.rows → Tolerant m xs (Reading.rowOperand m.store r)
  | .null, _              => refuse
  | .fieldDef _, h        => (fieldToken h).bind fun _ => pure
  | .methodDef _, h       => (methodToken h).bind fun _ => pure
  | .memberRef _ _ c p, h =>
      have parts : Parts m xs c p := h.parts
      (ofFieldMember parts.signature).bind fun _ => ite ((fieldToken h).bind fun _ => pure) ((methodToken h).bind fun _ => pure)
  | .methodSpec _ _ c, h  =>
      have held := Source.has_cons.1 h
      (methodToken (Source.has_append.1 held.2).1).bind fun _ =>
        (callSigTree m.store c fun _ hx => .inl (.row _ held.1 hx)).bind fun _ => pure
  | .typeSpec n t, h      => (typeTree m.store (.typeSpec n t) h.knows).bind fun _ => pure
  | .typeDef t, h         => (typeTree m.store (.typeDef t) h.knows).bind fun _ => pure
  | .typeRef i ns n r, h  => (typeTree m.store (.typeRef i ns n r) h.knows).bind fun _ => pure
  | .assemblyRef _ _, _ | .moduleRef _ _, _ => refuse

theorem tokenOperand {o : Live.Operand} (h : m.Has o.rows) (known : m.Knows xs o.signatures) :
    Tolerant m xs (Reading.tokenOperand m.store o) := by
  unfold Reading.tokenOperand
  split
  · exact rowOperand h
  · exact ite refuse (ite (callSigTree m.store _ known) refuse)
  · exact refuse

theorem operand (size : Nat) (op : OpCode) {o : Live.Operand} (h : m.Has o.rows)
    (known : m.Knows xs o.signatures) : Tolerant m xs (Reading.operand m.store size op o) := by
  unfold Reading.operand
  split
  all_goals first
    | exact pure
    | exact refuse
    | exact (targetIndex size _).bind fun _ => pure
    | exact (mapM fun t _ => targetIndex size t).bind fun _ => pure
    | exact (tokenOperand h known).bind fun _ => pure

theorem instruction (size : Nat) {i : Live.Instruction} (h : m.Has i.operand.rows)
    (known : m.Knows xs i.operand.signatures) :
    Tolerant m xs (Reading.instruction m.store size i) := (operand size _ h known).bind fun _ => pure

theorem handler (size : Nat) {h : Live.ExceptionHandler} (held : m.Has h.catchType.rows) :
    Tolerant m xs (Reading.handler m.store size h) :=
  (targetIndex size _).bind fun _ => (boundaryIndex size _).bind fun _ =>
    (boundaryIndex size _).bind fun _ => (targetIndex size _).bind fun _ =>
      (boundaryIndex size _).bind fun _ => ite (pure.bind fun _ => pure)
        (((typeTree m.store _ held.knows).map some).bind fun _ => pure)

theorem body {b : Live.MethodBody} (h : m.Has b.rows) (known : m.Knows xs b.signatures) :
    Tolerant m xs (Reading.body m.store b) := by
  obtain ⟨held, -⟩ := Source.has_append.1 h
  obtain ⟨operands, handlers⟩ := Source.has_append.1 held
  obtain ⟨signatures, locals⟩ := Source.knows_append.1 known
  refine (mapM fun i hi => ?_).bind fun _ =>
    (mapM fun h hh => handler _ (Source.has_flatMap.1 handlers h hh)).bind fun _ =>
      (typeSigTrees m.store _ locals).bind fun _ => pure
  exact instruction _ (Source.has_flatMap.1 operands i hi) (Source.knows_flatMap.1 signatures i hi)

/-! ### Definition data -/

theorem typeData {d : TypeDef} (h : m.Has d.rows) : Tolerant m xs (Reading.typeData m.store d) := by
  obtain ⟨h, -⟩ := Source.has_append.1 h
  obtain ⟨h, -⟩ := Source.has_append.1 h
  obtain ⟨h, attributes⟩ := Source.has_append.1 h
  obtain ⟨h, params⟩ := Source.has_append.1 h
  obtain ⟨base, interfaces⟩ := Source.has_append.1 h
  have rest (base : Option SigTree) : Tolerant m xs (do
      let interfaces ← Reading.typeTrees m.store d.interfaces
      let genericParameters ← Reading.genericParameters m.store d.genericParams
      let customAttributes ← Reading.customAttributes m.store d.customAttributes
      return ({
        attributes := d.attributes.toInt32
        baseType := base, genericParameters, customAttributes
        interfaces := Reading.nonempty interfaces
        layout := d.layout.map fun l => ⟨Int32.ofNat l.packingSize.toNat, l.classSize.toInt32⟩
        nestedTypes := none, fields := none, methods := none, properties := none,
        events := none } : TypeData)) :=
    (typeTrees interfaces).bind fun _ => (genericParameters params).bind fun _ =>
      (customAttributes attributes).bind fun _ => pure
  exact ite (pure.bind rest) (((typeTree m.store _ base.knows).map some).bind rest)

theorem fieldData {d : FieldDef} (h : m.Has d.rows) :
    Tolerant m xs (Reading.fieldData m.store d) :=
  (customAttributes (Source.has_append.1 h).2).bind fun _ => pure

theorem implMap (name : Bytes) (i : Live.ImplMap) : Tolerant m xs (Reading.implMap name i) := by
  unfold Reading.implMap
  split
  · exact pure
  · exact refuse

theorem methodData {d : MethodDef} (h : m.Has d.rows) (known : m.Knows xs d.signatures) :
    Tolerant m xs (Reading.methodData m.store d) := by
  obtain ⟨h, attributes⟩ := Source.has_append.1 h
  obtain ⟨h, generics⟩ := Source.has_append.1 h
  obtain ⟨h, overrides⟩ := Source.has_append.1 h
  obtain ⟨h, bodies⟩ := Source.has_append.1 h
  have params := (Source.has_append.1 h).2
  have knownBodies := (Source.knows_append.1 known).2
  refine (mapM fun p hp => parameter (Source.has_flatMap.1 params p hp)).bind fun _ =>
    (mapM fun r hr => methodToken (Source.has_flatMap.1 overrides r hr)).bind fun _ =>
      (genericParameters generics).bind fun _ => (customAttributes attributes).bind fun _ =>
        options.bind fun _ => ite ?_ ?_
  · exact (optional fun b hb => body (Source.has_flatMap.1 bodies b hb)
        (Source.knows_flatMap.1 knownBodies b hb)).bind fun _ =>
      (optional fun i _ => implMap _ i).bind fun _ => pure
  · exact pure.bind fun _ => (optional fun i _ => implMap _ i).bind fun _ => pure

end Tolerant

/-! ### Computations of orderly readers -/

/-- The signatures that a request brings along. -/
def Reader.Request.signatures : Reader.Request → List Signature
  | .specification (some t) => t.inside
  | _                       => []

/-- A type is on record with its definition. -/
def TypeDefined (m : Source) (ρ : Reader) (t : TypeId) (k : Token) : Prop :=
  ∃ r, ρ.registry.types.find? (Reading.definitionIdentity m.store t) = some r ∧ r.token = k ∧
    .definition ≤ r.level

theorem TypeDefined.grow {ρ ρ' : Reader} {t : TypeId} {k : Token} (h : TypeDefined m ρ t k)
    (hg : ρ.Grows ρ') : TypeDefined m ρ' t k := by
  obtain ⟨r, hr, rfl, hl⟩ := h
  obtain ⟨r', hr', ht, hl'⟩ := hg.types _ r (definitionIdentity_normal _ _) hr
  exact ⟨r', hr', ht, Level.le_trans hl hl'⟩

/-- What holds in every state holds in this one. -/
theorem Tolerant.here {ρ : Reader} {x : Reading α} (h : Tolerant m xs x) : TolerantFrom m xs ρ x :=
  fun ho => (h ρ ho.sound.image).1

namespace TolerantFrom

variable {ρ : Reader} {x : Reading α} {P : Reader → α → Prop}

/-- What has been put on record counts for what comes next. -/
theorem bind {f : α → Reading β} (hx : TolerantFrom m xs ρ x) (order : Orders m ρ x P)
    (hf : ∀ {a ρ₁}, Orderly m ρ₁ → ρ.Advances ρ₁ → P ρ₁ a → TolerantFrom m xs ρ₁ (f a)) :
    TolerantFrom m xs ρ (x >>= f) := by
  intro ho
  refine (hx ho).bind fun a ρ₁ h => ?_
  obtain ⟨ho₁, ha₁, hP⟩ := order ho
  rw [h] at ho₁ ha₁ hP
  exact hf ho₁ ha₁ (hP a rfl) ho₁

theorem bind_pure (hx : TolerantFrom m xs ρ x) (f : α → β) :
    TolerantFrom m xs ρ (x >>= fun a => pure (f a)) :=
  fun ho => (hx ho).bind fun _ _ _ => nofun

theorem ite {p : Prop} [Decidable p] {y : Reading α} (hx : p → TolerantFrom m xs ρ x)
    (hy : ¬ p → TolerantFrom m xs ρ y) : TolerantFrom m xs ρ (if p then x else y) := by
  split
  · next h => exact hx h
  · next h => exact hy h

theorem mapM {f : α → Reading β} {Q : α → Reader → β → Prop} {as : List α}
    (hf : ∀ a ∈ as, ∀ {ρ}, TolerantFrom m xs ρ (f a))
    (order : ∀ a ∈ as, ∀ {ρ}, Orders m ρ (f a) (Q a)) : TolerantFrom m xs ρ (as.mapM f) := by
  induction as generalizing ρ with
  | nil => exact Tolerant.pure.here
  | cons a as ih =>
      rw [List.forall_mem_cons] at hf order
      rw [List.mapM_cons]
      exact hf.1.bind order.1 fun _ _ _ => (ih hf.2 order.2).bind (.each order.2)
        fun _ _ _ => Tolerant.pure.here

/-! ### Fields and methods -/

/-- A field that is read is of the module, and so its definition holds what the module holds. -/
theorem field (f : Option FieldId) (level : Level) :
    TolerantFrom m xs ρ (Reading.field m.store f level) := by
  cases f with
  | none => exact Tolerant.refuse.here
  | some f =>
      refine Tolerant.checkLevel.here.bind .checkLevel fun ho₀ _ _ =>
        (Tolerant.fieldIdentity f).here.bind (.of_steady (Steady.fieldIdentity m.store f))
          fun {id ρ₁} _ _ hid => Tolerant.here ?_
      -- only a field that a type of the module declares has an identity
      obtain ⟨t, ρ', ht, -⟩ := gives_bind.1 hid
      obtain ⟨hdecl, himage, -⟩ := gives_declaringType.1 ht
      have held := Source.has_field (m := m) (himage.trans ho₀.sound.image) hdecl
      exact Tolerant.registering.bind fun _ => Tolerant.ite Tolerant.pure
        ((Tolerant.fieldData held).bind fun _ =>
          Tolerant.registering.bind fun _ => Tolerant.pure)

theorem method (f : Option MethodId) (level : Level) :
    TolerantFrom m xs ρ (Reading.method m.store f level) := by
  cases f with
  | none => exact Tolerant.refuse.here
  | some f =>
      refine Tolerant.checkLevel.here.bind .checkLevel fun ho₀ _ _ =>
        (Tolerant.methodIdentity f).here.bind
          (.of_steady (Steady.methodIdentity m.store f)) fun {id ρ₁} _ _ hid => Tolerant.here ?_
      obtain ⟨t, ρ', ht, -⟩ := gives_bind.1 hid
      obtain ⟨hdecl, himage, -⟩ := gives_declaringType.1 ht
      have held := Source.has_method (m := m) (himage.trans ho₀.sound.image) hdecl
      have known : m.Knows xs (m.store.methodDef f).signatures :=
        fun x hx => .inl (.method t f (himage.trans ho₀.sound.image) hdecl hx)
      exact Tolerant.registering.bind fun _ => Tolerant.ite Tolerant.pure
        ((Tolerant.methodData held known).bind fun _ =>
          Tolerant.registering.bind fun _ => Tolerant.pure)

theorem fields (fs : List (Option FieldId)) (level : Level) :
    TolerantFrom m xs ρ (Reading.fields m.store fs level) :=
  mapM (fun f _ => field f level) fun f _ => .field f level

theorem methods (fs : List (Option MethodId)) (level : Level) :
    TolerantFrom m xs ρ (Reading.methods m.store fs level) :=
  mapM (fun f _ => method f level) fun f _ => .method f level

/-! ### Types -/

/-- What is stored of a type that is on record with its definition is a definition. -/
theorem children {t : TypeId} {k : Token} {ns : List Token}
    (ht : (m.store.typeDef t).image = m.image) (hk : TypeDefined m ρ t k) :
    TolerantFrom m xs ρ (Reading.children m.store t k ns) := by
  obtain ⟨held, events⟩ := Source.has_append.1 (Source.has_type (m := m) ht)
  have properties := (Source.has_append.1 held).2
  have known : ∀ p ∈ (m.store.typeDef t).properties, m.Knows xs p.signature.inside :=
    Source.knows_flatMap.1 fun x hx => .inl (.type t ht hx)
  refine (fields _ _).bind (.fields _) fun {fs ρ₁} _ ha₁ _ =>
    (methods _ _).bind (.methods _) fun {ms ρ₂} _ ha₂ _ =>
      (Tolerant.mapM fun p hp =>
        Tolerant.property (Source.has_flatMap.1 properties p hp) (known p hp)).here.bind
          (.of_steady (.mapM _ (Steady.property m.store))) fun {ps ρ₃} _ ha₃ _ =>
      (Tolerant.mapM fun e he =>
        Tolerant.event (Source.has_flatMap.1 events e he)).here.bind
          (.of_steady (.mapM _ (Steady.event m.store))) fun {es ρ₄} ho₄ ha₄ _ =>
      Tolerant.get.here.bind .get fun {_ _} _ _ hget => ?_
  obtain ⟨rfl, rfl⟩ := hget
  -- reading the children has not lowered the level that the type is on record at
  obtain ⟨r, hr, rfl, hl⟩ := hk.grow (ha₁.trans (ha₂.trans (ha₃.trans ha₄))).grows
  obtain ⟨e, he, -, hdef⟩ := ho₄.sound.types.found _ r (definitionIdentity_normal m.store t) hr
  rw [TokenMap.get_of_get? he]
  cases e with
  | reference id => exact absurd (hdef.2 hl) Bool.false_ne_true
  | definition id d =>
      exact (Tolerant.pure.bind fun _ => Tolerant.registering.bind fun _ => Tolerant.pure).here

/-- A step that is taken towards a type is one less for those within it, and one more type around them. -/
theorem typeWithin (agrees : m.store.NestingAgrees) (rooted : ∀ t, m.store.Rooted t)
    (depth : Nat) : ∀ (t : TypeId) (level : Level) {ρ : Reader},
      m.store.typeDefs.length < depth + (m.store.enclosing t).length →
      TolerantFrom m xs ρ (Reading.typeWithin m.store depth (some t) level) := by
  induction depth with
  | zero =>
      intro t level ρ deep
      rw [Nat.zero_add] at deep
      exact absurd deep (Nat.not_lt.2 (m.store.length_enclosing_le t))
  | succ depth ih =>
      intro t level ρ deep
      have hnorm := definitionIdentity_normal m.store t
      -- what follows the definition, whether that has just been read or was on record before
      have rest {ρ : Reader} {k : Token} (ht : (m.store.typeDef t).image = m.image)
          (hk : TypeDefined m ρ t k) :
          TolerantFrom m xs ρ (do
            if level ≤ .definition then return k
            let nested ← (m.store.typeDef t).nestedTypes.mapM fun n =>
              Reading.typeWithin m.store depth (some n) level
            Reading.children m.store t k nested
            return k) := by
        have inner : ∀ n ∈ (m.store.typeDef t).nestedTypes,
            m.store.typeDefs.length < depth + (m.store.enclosing n).length := by
          intro n hn
          rw [(rooted n).length_enclosing (agrees t n hn)]
          omega
        exact ite (fun _ => Tolerant.pure.here) fun _ =>
          (mapM (fun n hn => ih n level (inner n hn)) fun n _ =>
            .typeWithin depth (some n) level).bind (.each fun n _ => .typeWithin depth (some n) level)
              fun _ ha _ => (children ht (hk.grow ha.grows)).bind_pure _
      refine Tolerant.checkLevel.here.bind .checkLevel fun ho₀ _ _ =>
        (Tolerant.checkType m.store t).here.bind (.of_steady (Steady.checkType m.store t))
          fun {_ ρ₁} ho₁ _ hcheck => Tolerant.registering.here.bind
            (.registering fun ho h => ho.refers (.type (.refl _) hnorm h))
              fun {u ρ₂} ho₂ _ hu => ite (fun _ => Tolerant.pure.here) fun _ => ?_
      have ht : (m.store.typeDef t).image = m.image := by
        rw [(gives_checkType.1 hcheck).1, ho₀.sound.image]
      obtain ⟨l, tm, step, rfl⟩ := step_of_registerType (e := .reference _) ho₁.sound hnorm hu
      obtain ⟨r, hr, htoken, hlevel⟩ := step.level_eq ho₁.sound.types hnorm
      refine ite (fun _ => ?_) fun hdefined =>
        rest ht ⟨r, hr, htoken, hlevel ▸ Level.le_of_not_lt hdefined⟩
      refine (Tolerant.typeData (Source.has_type ht)).here.bind
        (.of_steady (Steady.typeData m.store _)) fun {d ρ₃} ho₃ ha₃ hd =>
          Tolerant.registering.here.bind (.registering fun ho h => ?_) fun {v ρ₄} _ _ hv => ?_
      · exact ho.registerChildless hnorm (TypeData.childless_of_bare (typeData_bare hd)) h
      · obtain ⟨r₃, hr₃, htoken₃, -⟩ := ha₃.grows.types _ r hnorm hr
        obtain ⟨l', tm', step', rfl⟩ :=
          step_of_registerType (e := .definition _ _) ho₃.sound hnorm hv
        obtain ⟨r₄, hr₄, htoken₄, hl₄⟩ := step'.recorded
        refine rest ht ⟨r₄, hr₄, ?_, hl₄⟩
        rw [htoken₄, step'.token_eq hr₃, htoken₃, htoken]

/-- There are as many steps as there are types, and one more. -/
theorem type (agrees : m.store.NestingAgrees) (rooted : ∀ t, m.store.Rooted t) (t : Option TypeId)
    (level : Level) : TolerantFrom m xs ρ (Reading.type m.store t level) := by
  cases t with
  | none => exact Tolerant.refuse.here
  | some t =>
      exact typeWithin agrees rooted _ t level (Nat.lt_add_right _ (Nat.lt_succ_self _))

theorem serve (agrees : m.store.NestingAgrees) (rooted : ∀ t, m.store.Rooted t)
    (q : Reader.Request) : TolerantFrom m q.signatures ρ (Reader.serve m.store q) := by
  cases q with
  | type t level => exact (type agrees rooted t level).bind_pure _
  | field f level => exact (field f level).bind_pure _
  | method f level => exact (method f level).bind_pure _
  | types ts level =>
      exact (mapM (fun t _ => type agrees rooted t level) fun t _ =>
        .typeWithin _ t level).bind_pure _
  | fields fs level => exact (fields fs level).bind_pure _
  | methods fs level => exact (methods fs level).bind_pure _
  | specification t =>
      cases t with
      | none => exact Tolerant.refuse.here
      | some t => exact (Tolerant.typeSigTree m.store t fun _ => .inr).here.bind_pure _

end TolerantFrom

end CilCatalog
