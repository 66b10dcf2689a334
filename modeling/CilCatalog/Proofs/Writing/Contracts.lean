import CilCatalog.Proofs.Live.Store
import CilCatalog.Proofs.Writing.Gives

/-!
# Contracts that a writer keeps in every state

Most of what a writer relies upon is so whatever state it is in: arguments are counted before they are taken, an integer is seen to be one before it is read, what has just been made has no place yet, and a signature that has been made is there.  There is one equation for each function, which says what the function comes to without these contracts; it is what the function is known by from here on.
What is left are the rows whose kinds are asked for.  That they are there has to do with what the writer remembers.
-/

namespace CilCatalog

open Live

/-! ### What has just been made -/

namespace Live.Store

/-- What has been put at the end of a list is changed there. -/
theorem modify_concat {α : Type} (as : List α) (a : α) (f : α → α) :
    (as ++ [a]).modify as.length f = as ++ [f a] := by
  induction as with
  | nil => rfl
  | cons b as ih => exact congrArg (b :: ·) ih

variable (s : Store) {φ : Type}

theorem nest_addTypeDef (i : ImageId) (ns name : Bytes) (outer : TypeId) :
    ((s.addTypeDef i ns name).2.nest outer (s.addTypeDef i ns name).1 : Except (Failure φ) Store) =
      .ok (s.createNestedType i ns name outer).2 := by
  have new : (s.addTypeDef i ns name).2.typeDef (s.addTypeDef i ns name).1 =
      { image := i, ns, name } := typeDef_new rfl
  simp only [nest, new]
  simp only [addTypeDef, createNestedType, modifyType, modify_concat]

theorem attachField_addFieldDef (t : TypeId) {d : FieldDef} (h : d.declaring = none) :
    ((s.addFieldDef d).2.attachField t (s.addFieldDef d).1 : Except (Failure φ) Store) =
      .ok (s.createField t d).2 := by
  have new : (s.addFieldDef d).2.fieldDef (s.addFieldDef d).1 = d := fieldDef_new rfl
  simp only [attachField, new, h]
  simp only [addFieldDef, createField, modifyField, modify_concat]

theorem attachMethod_addMethodDef (t : TypeId) {d : MethodDef} (h : d.declaring = none) :
    ((s.addMethodDef d).2.attachMethod t (s.addMethodDef d).1 : Except (Failure φ) Store) =
      .ok (s.createMethod t d).2 := by
  have new : (s.addMethodDef d).2.methodDef (s.addMethodDef d).1 = d := methodDef_new rfl
  simp only [attachMethod, new, h]
  simp only [addMethodDef, createMethod, modifyMethod, modify_concat]

end Live.Store

namespace Writing

variable {α β : Type}

/-! ### Arguments -/

theorem integerOf_eq (node : String) (i : Nat) (a : SigTree) :
    integerOf node i a = match a.int32? with
      | some n => .ok n
      | none   => .error (.fault (.notInteger node i)) := by
  cases a with
  | inline k o => cases k <;> rfl
  | _ => rfl

theorem unbroken_integerOf (node : String) (i : Nat) (a : SigTree) :
    Unbroken (integerOf node i a) := by
  rw [integerOf_eq]
  split
  · exact unbroken_ok _
  · exact unbroken_fault _

theorem unbroken_unsignedOf (node : String) (i : Nat) (a : SigTree) :
    Unbroken (unsignedOf node i a) := by
  refine (unbroken_integerOf node i a).bind fun n => ?_
  split
  · exact unbroken_fault _
  · exact unbroken_ok _

theorem unbroken_checkCount (node : String) (due found : Nat) :
    Unbroken (checkCount node due found) := by
  unfold checkCount
  split
  · exact unbroken_ok _
  · exact unbroken_fault _

section Lists

variable {read : String → Nat → SigTree → Except (Failure ArgumentFault) α}
  (h : ∀ node i a, Unbroken (read node i a)) (node : String)

include h

theorem unbroken_nextBy (i : Nat) (as : List SigTree) : Unbroken (nextBy read node i as) := by
  cases as with
  | nil => exact unbroken_fault _
  | cons a as => exact (h node i a).bind fun _ => unbroken_ok _

theorem unbroken_runBy (i n : Nat) (as : List SigTree) : Unbroken (runBy read node i n as) := by
  induction n generalizing i as with
  | zero => exact unbroken_ok _
  | succ n ih =>
      cases as with
      | nil => exact unbroken_fault _
      | cons a as => exact (h node i a).bind fun _ => (ih (i + 1) as).bind fun _ => unbroken_ok _

end Lists

theorem unbroken_arrayShape (as : List SigTree) : Unbroken (ArrayShape.ofArguments as) := by
  refine (unbroken_nextBy unbroken_unsignedOf _ _ _).bind fun _ =>
    (unbroken_nextBy unbroken_unsignedOf _ _ _).bind fun _ =>
      (unbroken_runBy unbroken_unsignedOf _ _ _ _).bind fun _ =>
        (unbroken_nextBy unbroken_unsignedOf _ _ _).bind fun _ =>
          (unbroken_runBy unbroken_integerOf _ _ _ _).bind fun _ => ?_
  dsimp only
  split
  · exact unbroken_ok _
  · exact unbroken_fault _

/-- What is counted goes on if the count is right. -/
theorem bind_checkCount (node : String) (due found : Nat) (f : Unit → Writing α) :
    (argument (checkCount node due found) >>= f) =
      if due = found then f () else refuse (.argument (.count node due found)) := by
  unfold checkCount
  split <;> rfl

theorem bind_nextBy_cons (read : String → Nat → SigTree → Except (Failure ArgumentFault) β)
    (node : String) (i : Nat) (a : SigTree) (as : List SigTree)
    (f : β × List SigTree → Writing α) :
    (argument (nextBy read node i (a :: as)) >>= f) =
      argument (read node i a) >>= fun v => f (v, as) := by
  change (argument (read node i a >>= fun v => .ok (v, as)) >>= f) = _
  cases read node i a <;> rfl

/-! ### Signatures -/

section Signatures

variable {c : Catalog} {w w' : WriteState}

theorem isNull_of_ofMethod {raw : UInt8} {n : UInt32} {ret : TypeSig} {ps vs : List TypeSig}
    {sig : CallSig} (h : CallSig.ofMethod raw n ret ps vs = .ok (ε := Failure WriteFault) sig) :
    sig.isNull = false := by
  unfold CallSig.ofMethod at h
  dsimp only at h
  split at h
  · cases h
    rfl
  · cases h

theorem isNull_of_methodSigOf {k : CallingConvention} {flags : UInt8} {g : UInt32} {i : Nat}
    {as : List SigTree} {sig : CallSig} (h : Gives (methodSigOf c k flags g i as) w sig w') :
    sig.isNull = false := by
  unfold methodSigOf at h
  split at h
  · exact absurd h gives_throw
  · obtain ⟨_, _, -, h⟩ := gives_bind.1 h
    exact absurd h gives_throw
  · obtain ⟨_, _, -, h⟩ := gives_bind.1 h
    obtain ⟨_, _, -, h⟩ := gives_bind.1 h
    obtain ⟨_, _, -, h⟩ := gives_bind.1 h
    obtain ⟨-, h⟩ := gives_guard.1 h
    split at h
    · obtain ⟨rfl, -⟩ := gives_pure.1 h
      rfl
    · exact isNull_of_ofMethod (gives_ofExcept.1 h).1

/-- A signature that has been made is there. -/
theorem isNull_of_callSigOf {t : SigTree} {sig : CallSig} (h : Gives (callSigOf c t) w sig w') :
    sig.isNull = false := by
  unfold callSigOf at h
  split at h
  · split at h
    · exact absurd h gives_throw
    · exact absurd h gives_throw
    · obtain ⟨_, _, -, h⟩ := gives_bind.1 h
      split at h
      · exact absurd h gives_throw
      · split at h
        · split at h
          · exact isNull_of_methodSigOf h
          · split at h
            · exact absurd h gives_throw
            · obtain ⟨_, _, -, h⟩ := gives_bind.1 h
              exact isNull_of_methodSigOf h
        · split at h
          · exact absurd h gives_throw
          · split at h
            · obtain ⟨_, _, -, h⟩ := gives_bind.1 h
              split at h
              · exact absurd h gives_throw
              · obtain ⟨_, -, rfl⟩ := gives_bind_pure.1 h
                rfl
            · obtain ⟨_, -, rfl⟩ := gives_bind_pure.1 h
              rfl
            · obtain ⟨_, -, rfl⟩ := gives_bind_pure.1 h
              rfl
  · exact absurd h gives_throw

/-- The kind of a signature that has been made may be asked for. -/
theorem callSigOf_askable (t : SigTree) (f : CallSig → Writing α) :
    (do
      let sig ← callSigOf c t
      askable sig.isNull
      f sig) = callSigOf c t >>= f := by
  funext w
  cases h : callSigOf c t w with
  | mk r w₁ =>
      cases r with
      | error e => rw [run_bind_error h, run_bind_error h]
      | ok sig =>
          rw [run_bind_ok h, run_bind_ok h, isNull_of_callSigOf h]
          rfl

/-- All that there are, if they have been counted. -/
theorem countedSigsOf_length (i : Nat) (as : List SigTree) :
    countedSigsOf c i as.length as = typeSigsOf c as := by
  induction as generalizing i with
  | nil => rfl
  | cons a as ih =>
      rw [List.length_cons, countedSigsOf, typeSigsOf]
      exact bind_congr fun _ => by rw [ih]

theorem checkCount_countedSigsOf (node : String) (n : Nat) (as : List SigTree)
    (f : List TypeSig → Writing α) :
    (do
      argument (checkCount node (2 + n) (2 + as.length))
      f (← countedSigsOf c 2 n as)) = (do
      argument (checkCount node (2 + n) (2 + as.length))
      f (← typeSigsOf c as)) := by
  rw [bind_checkCount, bind_checkCount]
  split
  · next h =>
      obtain rfl := Nat.add_left_cancel h
      rw [countedSigsOf_length]
  · rfl

/-- The signature of a type, where all that is taken is there. -/
theorem typeSigOfCode_eq (code : UInt8) (as : List SigTree) :
    typeSigOfCode c code as = match ElementType.ofCode? code with
      | none   => refuse (.unknownElementType code)
      | some e => if h : e.isLeaf = true then do
          argument (checkCount e.name 0 as.length)
          return .leaf e h
        else match e, as with
        | .ptr,     [t] => do return .wrapper .ptr (← typeSigOf c t)
        | .byRef,   [t] => do return .wrapper .byRef (← typeSigOf c t)
        | .szArray, [t] => do return .wrapper .szArray (← typeSigOf c t)
        | .pinned,  [t] => do return .wrapper .pinned (← typeSigOf c t)
        | .fnPtr,   [t] => do
            let sig ← callSigOf c t
            if sig.isMethod then return .fnPtr sig else refuse .functionPointer
        | .cls,       [.token t] => do return .named false (← typeOfToken c t)
        | .valueType, [.token t] => do return .named true (← typeOfToken c t)
        | .cls,       [_] => refuse (.typeToken e.name)
        | .valueType, [_] => refuse (.typeToken e.name)
        | .var,     [n] => do return .generic false (← argument (unsignedOf e.name 0 n))
        | .mvar,    [n] => do return .generic true (← argument (unsignedOf e.name 0 n))
        | .array,   t :: rest => do
            let next ← typeSigOf c t
            let shape ← argument (ArrayShape.ofArguments rest)
            return .array next shape.rank shape.sizes shape.lowerBounds
        | .genericInst, [t] => do
            let _ ← typeSigOf c t
            refuse (.argument (.missing e.name 1))
        | .genericInst, t :: n :: rest => do
            let type ← typeSigOf c t
            let count ← argument (unsignedOf e.name 1 n)
            argument (checkCount e.name (2 + count.toNat) (2 + rest.length))
            return .genericInst type (← typeSigsOf c rest)
        | .array,       [] => refuse (.argument (.missing e.name 0))
        | .genericInst, [] => refuse (.argument (.missing e.name 0))
        | .valueArray, [t, n] => do
            let next ← typeSigOf c t
            return .valueArray next (← argument (unsignedOf e.name 1 n))
        | .cmodReqd, [m, t] => do
            let modifier ← rowOfTree c m
            return .modifier true modifier (← typeSigOf c t)
        | .cmodOpt,  [m, t] => do
            let modifier ← rowOfTree c m
            return .modifier false modifier (← typeSigOf c t)
        | .module,   [n, t] => do
            let index ← argument (unsignedOf e.name 0 n)
            return .module index (← typeSigOf c t)
        | .ptr, as | .byRef, as | .szArray, as | .pinned, as | .fnPtr, as | .cls, as
        | .valueType, as | .var, as | .mvar, as =>
            refuse (.argument (.count e.name 1 as.length))
        | .valueArray, as | .cmodReqd, as | .cmodOpt, as | .module, as =>
            refuse (.argument (.count e.name 2 as.length))
        | e, _ => refuse (.misplaced e.name) := by
  rw [typeSigOfCode.eq_def]
  cases ElementType.ofCode? code with
  | none => rfl
  | some e =>
    dsimp only
    -- a list that is too long is refused by its count, before anything is taken from it
    have few : ∀ {n m : Nat} {f : Unit → Writing TypeSig}, n ≠ m →
        (argument (checkCount e.name n m) >>= f) = refuse (.argument (.count e.name n m)) :=
      fun h => by rw [bind_checkCount, if_neg h]
    -- by the length of the list, up to the number of arguments that the element takes
    cases e
    case fnPtr =>
      rcases as with _ | ⟨t, _ | ⟨u, as⟩⟩
      · rfl
      · exact callSigOf_askable t _
      · exact few (by simp)
    case cls | valueType =>
      rcases as with _ | ⟨t, _ | ⟨u, as⟩⟩
      · rfl
      · cases t with
        | inline k _ => cases k <;> rfl
        | _ => rfl
      · cases t <;> exact few (by simp)
    case var | mvar =>
      rcases as with _ | ⟨n, _ | ⟨u, as⟩⟩
      · rfl
      · exact bind_nextBy_cons ..
      · exact few (by simp)
    case genericInst =>
      rcases as with _ | ⟨t, _ | ⟨n, as⟩⟩
      · rfl
      · rfl
      · exact bind_congr fun _ => bind_congr fun _ => checkCount_countedSigsOf ..
    case valueArray =>
      rcases as with _ | ⟨t, _ | ⟨n, _ | ⟨u, as⟩⟩⟩
      · rfl
      · rfl
      · exact bind_congr fun _ => bind_nextBy_cons ..
      · exact few (by simp)
    case module =>
      rcases as with _ | ⟨n, _ | ⟨t, _ | ⟨u, as⟩⟩⟩
      · rfl
      · rfl
      · exact bind_nextBy_cons ..
      · exact few (by simp)
    all_goals first
      | rfl
      | rcases as with _ | ⟨t, _ | ⟨u, _ | ⟨v, as⟩⟩⟩ <;> rfl

theorem mask_of_flagsOf {n : Int32} {f : UInt8} (h : flagsOf n = some f) :
    f &&& CallingConvention.mask = 0 := by
  unfold flagsOf at h
  split at h
  · dsimp only at h
    split at h
    · next hf => cases h; exact hf
    · exact nomatch h
  · exact nomatch h

/-- Where the calling convention is one of methods or properties, and the flags leave it alone, there is a signature with both. -/
theorem methodSigOf_eq {k : CallingConvention} (hk : k.isMethodLike = true) {f : UInt8}
    (hf : f &&& CallingConvention.mask = 0) (g : UInt32) (i : Nat) (as : List SigTree) :
    methodSigOf c k f g i as = match as with
      | []           => refuse (.argument (.missing k.name i))
      | [n]          => do
          let _ ← argument (unsignedOf k.name i n)
          refuse (.argument (.missing k.name (i + 1)))
      | n :: r :: ts => do
          let count ← argument (unsignedOf k.name i n)
          let ret ← typeSigOf c r
          let (ps, vs) ← parametersOf c false ts
          if ps.length + vs.length ≠ count.toNat then
            refuse (.parameterCount count (ps.length + vs.length))
          return .method (k.code ||| f) (CallingConvention.isMethodOrPropertyRaw_or hk hf) g ret ps vs := by
  have made : ∀ {ret ps vs}, (if k = .property then pure (.ofProperty f g ret ps vs)
      else MonadExcept.ofExcept (CallSig.ofMethod (k.code ||| f) g ret ps vs) : Writing CallSig) =
        pure (.method (k.code ||| f) (CallingConvention.isMethodOrPropertyRaw_or hk hf) g ret ps vs) := by
    intro ret ps vs
    split
    · next hp => subst hp; rfl
    · next hp =>
        have other : CallingConvention.ofRaw? (k.code ||| f) ≠ some .property := by
          rw [CallingConvention.ofRaw?_or k hf]
          exact fun h => hp (Option.some.inj h)
        rw [CallSig.ofMethod, dif_pos ⟨CallingConvention.isMethodLikeRaw_or hk hf, other⟩]
        rfl
  unfold methodSigOf
  rcases as with _ | ⟨n, _ | ⟨r, ts⟩⟩
  · rfl
  · rfl
  · simp only [made]

theorem countedTypesOf_eq (k : CallingConvention) (as : List SigTree) :
    countedTypesOf c k as = (match as with
      | []      => refuse (.argument (.missing k.name 1))
      | n :: ts => do
          let count ← argument (unsignedOf k.name 1 n)
          argument (checkCount k.name (2 + count.toNat) (2 + ts.length))
          typeSigsOf c ts) := by
  rw [countedTypesOf.eq_def]
  cases as with
  | nil => rfl
  | cons n ts =>
      dsimp only
      refine bind_congr fun count => ?_
      have := checkCount_countedSigsOf (c := c) k.name count.toNat ts pure
      simpa only [bind_pure] using this

theorem callSigOf_eq (code : UInt8) (as : List SigTree) :
    callSigOf c (.callSig code as) = match CallingConvention.ofCode? code, as with
      | none,   _       => refuse (.unknownConvention code)
      | some k, []      => refuse (.argument (.missing k.name 0))
      | some k, n :: as => do
          let n ← argument (integerOf k.name 0 n)
          match flagsOf n with
          | none       => refuse (.invalidFlags n)
          | some flags =>
              if k.isMethodLike = true then
                if flags &&& CallingConvention.genericFlag = 0 then methodSigOf c k flags 0 1 as
                else match as with
                  | []      => refuse (.argument (.missing k.name 1))
                  | n :: as => do
                      let count ← argument (unsignedOf k.name 1 n)
                      methodSigOf c k flags count 2 as
              else if flags ≠ 0 then refuse (.flagsNotAllowed k.name flags)
              else match k, as with
                | .field,    [t] => do return .field (← typeSigOf c t)
                | .field,    as  => refuse (.argument (.count k.name 2 (1 + as.length)))
                | .localSig, as  => do return .locals (← countedTypesOf c k as)
                | _,         as  => do return .inst (← countedTypesOf c k as) := by
  rw [callSigOf.eq_def]
  dsimp only
  cases CallingConvention.ofCode? code with
  | none => rfl
  | some k =>
      cases as with
      | nil => rfl
      | cons n as =>
          dsimp only
          refine bind_congr fun n => ?_
          cases flagsOf n with
          | none => rfl
          | some f =>
              dsimp only
              refine ite_congr rfl (fun _ => rfl) fun _ => ite_congr rfl (fun _ => rfl) fun _ => ?_
              cases k
              -- a field has one type behind its flags; whatever else there is has its own equation
              case field =>
                rcases as with _ | ⟨t, _ | ⟨u, as⟩⟩
                · rfl
                · rfl
                · rw [bind_checkCount, if_neg (by simp only [List.length_cons]; omega)]
              all_goals rfl

end Signatures

/-! ### What is made -/

theorem run_tryMaking {make : ImageId → Store → Except (Failure WriteFault) (α × Store)}
    {w : WriteState} {a : α} {s : Store} (h : make w.writer.image w.store = .ok (a, s)) :
    tryMaking make w = (.ok a, { w with store := s }) := by
  unfold tryMaking
  rw [run_bind_ok (gives_get.2 ⟨rfl, rfl⟩), h]
  rfl

theorem run_changing {f : Store → Except (Failure WriteFault) Store} {w : WriteState} {s : Store}
    (h : f w.store = .ok s) : changing f w = (.ok (), { w with store := s }) := by
  unfold changing
  rw [run_bind_ok (gives_get.2 ⟨rfl, rfl⟩), h]
  rfl

/-- What is made and then put in its place comes to what is made there. -/
theorem making_changing {make both : ImageId → Store → α × Store}
    {put : α → Store → Except (Failure WriteFault) Store}
    (h : ∀ i s, (both i s).1 = (make i s).1 ∧ put (make i s).1 (make i s).2 = .ok (both i s).2)
    (f : α → Writing β) : (do
      let a ← making make
      changing (put a)
      f a) = making both >>= f := by
  funext w
  obtain ⟨same, placed⟩ := h w.writer.image w.store
  have made : making make w = (.ok (make w.writer.image w.store).1,
      { w with store := (make w.writer.image w.store).2 }) := rfl
  have whole : making both w = (.ok (make w.writer.image w.store).1,
      { w with store := (both w.writer.image w.store).2 }) := by rw [← same]; rfl
  rw [run_bind_ok made, run_bind_ok (run_changing placed), run_bind_ok whole]

theorem referenceIn_eq {scope : Row} (h : scope.isNull = false) (ns name : Bytes) :
    referenceIn scope ns name = (do
      match ((← store).image (← writer).image).typeRefs.find? (isTypeReference scope ns name) with
      | some r => return r
      | none   => making fun i s => s.addTypeRef i ns name scope) := by
  unfold referenceIn
  refine bind_congr fun s => bind_congr fun v => ?_
  generalize (s.image v.image).typeRefs.find? (isTypeReference scope ns name) = found
  cases found with
  | some r => rfl
  | none =>
      funext w
      refine run_tryMaking ?_
      rw [Store.createTypeRef, h]
      rfl

theorem nestedDefinition_eq (outer : TypeId) (name : Bytes) :
    nestedDefinition outer name = (do
      let s ← store
      match (s.typeDef outer).nestedTypes.find? fun t => (s.typeDef t).name == name with
      | some t => return .typeDef t
      | none   => do return .typeDef (← making fun i s => s.createNestedType i [] name outer)) := by
  unfold nestedDefinition
  refine bind_congr fun s => ?_
  generalize (s.typeDef outer).nestedTypes.find? (fun t => (s.typeDef t).name == name) = found
  cases found with
  | some t => rfl
  | none =>
      refine making_changing ?_ _
      exact fun i s => ⟨rfl, s.nest_addTypeDef i [] name outer⟩

section Members

variable (c : Catalog)

theorem resolveField_eq (id : MemberIdentity) :
    resolveField c id = (do
      let parent ← rowOfTree c id.type
      let sig ← callSigOf c id.signature
      if !sig.isField then refuse (.signatureKind "field" id.name)
      askable parent.isNull
      match parent with
      | .typeDef t =>
          match (← store).findField? t id.name sig with
          | some f => return .fieldDef f
          | none   => do
              let d : Live.FieldDef := { name := id.name, signature := sig, attributes := assemblyAccess }
              return .fieldDef (← making fun _ s => s.createField t d)
      | _ => making fun i s => s.createMemberRef i id.name sig parent) := by
  refine bind_congr fun parent => (callSigOf_askable _ _).trans (bind_congr fun sig =>
    ite_congr rfl (fun _ => rfl) fun _ => bind_congr fun _ => ?_)
  cases parent
  case typeDef t =>
    refine bind_congr fun s => ?_
    dsimp only
    generalize s.findField? t id.name sig = found
    cases found with
    | some _ => rfl
    | none =>
        refine making_changing ?_ _
        exact fun _ s => ⟨rfl, s.attachField_addFieldDef t rfl⟩
  all_goals rfl

theorem resolveMethod_eq (id : MemberIdentity) :
    resolveMethod c id = (do
      let parent ← rowOfTree c id.type
      let sig ← callSigOf c id.signature
      if !sig.isMethod then refuse (.signatureKind "method" id.name)
      askable parent.isNull
      match parent with
      | .typeDef t =>
          match (← store).findMethod? t id.name sig with
          | some m => return .methodDef m
          | none   => do
              let d : Live.MethodDef := { name := id.name, signature := sig, attributes := assemblyAccess }
              return .methodDef (← making fun _ s => s.createMethod t d)
      | _ => making fun i s => s.createMemberRef i id.name sig parent) := by
  refine bind_congr fun parent => (callSigOf_askable _ _).trans (bind_congr fun sig =>
    ite_congr rfl (fun _ => rfl) fun _ => bind_congr fun _ => ?_)
  cases parent
  case typeDef t =>
    refine bind_congr fun s => ?_
    dsimp only
    generalize s.findMethod? t id.name sig = found
    cases found with
    | some _ => rfl
    | none =>
        refine making_changing ?_ _
        exact fun _ s => ⟨rfl, s.attachMethod_addMethodDef t rfl⟩
  all_goals rfl

/-! ### Definitions -/

theorem property_eq (p : Property) : property c p = do
    let sig ← callSigOf c p.signature
    if !sig.isProperty then refuse (.signatureKind "property" p.name)
    let get ← accessor c p.getMethod
    let set ← accessor c p.setMethod
    return ⟨p.name, sig, low16 p.attributes, get, set, ← customAttributes c p.customAttributes⟩ :=
  callSigOf_askable _ _

theorem tokenOperand_eq (t : SigTree) : tokenOperand c t = match t with
    | .callSig code as => do
        let sig ← callSigOf c (.callSig code as)
        if sig.isMethod || sig.isLocals then return .signature sig else refuse .signatureOperand
    | .inline .type t => do return .row (← rowOfTree c t)
    | .inline .field (.token t) => do return .row (← fieldOfToken c t)
    | .inline .field _ => refuse .fieldOperand
    | .inline .method (.token t) => do return .row (← methodOfToken c t)
    | .inline .method (.methodSpec (.token t) i) => do
        let method ← methodOfToken c t
        let sig ← callSigOf c i
        if sig.isInst then return .row (← making fun _ s => s.createMethodSpec method sig)
        else refuse .instantiation
    | .inline .method _ => refuse .methodOperand
    | t => refuse (.operandKind t.kind.name) := by
  cases t with
  | callSig => exact callSigOf_askable _ _
  | inline k o =>
      cases k <;> cases o
      case method.methodSpec m i =>
        cases m
        case token => exact bind_congr fun _ => callSigOf_askable _ _
        all_goals rfl
      all_goals rfl
  | _ => rfl

theorem opCode_eq (i : Instruction) : opCode i = match OpCode.ofName? i.opcode with
    | some op => return (op, i.operand)
    | none    => refuse (.unknownOpCode i.opcode) := by
  unfold opCode
  cases OpCode.ofName? i.opcode <;> rfl

theorem field_eq (e : FieldEntity) (level : Level) : field c e level = (do
    checkLevel .definition level
    let id := e.identity
    let row ← fieldRow c id
    if level ≤ (← writer).fields.level id then return row
    let some data := e.data? | refuse (.onlyReference "Field" id.name level)
    askable row.isNull
    let .fieldDef f := row
      | refuse (.notInModule "Field" id.name ((← store).image (← writer).image).name)
    defineField c f data
    modifyWriter fun w => { w with fields := w.fields.atLevel id .definition }
    return row) := by
  cases e with
  | reference => rfl
  | definition =>
      refine bind_congr fun _ => bind_congr fun row => bind_congr fun v =>
        ite_congr rfl (fun _ => rfl) fun _ => bind_congr fun _ => ?_
      cases row <;> rfl

theorem method_eq (e : MethodEntity) (level : Level) : method c e level = (do
    checkLevel .definition level
    let id := e.identity
    let row ← methodRow c id
    if level ≤ (← writer).methods.level id then return row
    let some data := e.data? | refuse (.onlyReference "Method" id.name level)
    askable row.isNull
    let .methodDef m := row
      | refuse (.notInModule "Method" id.name ((← store).image (← writer).image).name)
    defineMethod c m data
    modifyWriter fun w => { w with methods := w.methods.atLevel id .definition }
    return row) := by
  cases e with
  | reference => rfl
  | definition =>
      refine bind_congr fun _ => bind_congr fun row => bind_congr fun v =>
        ite_congr rfl (fun _ => rfl) fun _ => bind_congr fun _ => ?_
      cases row <;> rfl

theorem typeWithin_eq (depth : Nat) (e : TypeEntity) (level : Level) :
    typeWithin c (depth + 1) e level = (do
      checkLevel .withChildren level
      let id := e.identity
      let row ← typeRow id
      let old := (← writer).types.level id
      if level ≤ old then return row
      let some data := e.data? | refuse (.onlyReference "Type" id.name level)
      askable row.isNull
      let .typeDef t := row
        | refuse (.notInModule "Type" id.name ((← store).image (← writer).image).name)
      if old < .definition then
        defineType c t data
        modifyWriter fun w => { w with types := w.types.atLevel id .definition }
      if level = .withChildren then
        forPresent data.nestedTypes fun ts => do
          let rows ← ts.mapM fun n => do typeWithin c depth (← lookUp c.types n) level
          let ns ← rows.mapM (nestedIn (← store) t)
          modifyStore (·.modifyType t fun l =>
            { l with nestedTypes := reordered ns l.nestedTypes })
        defineMembers c t data
        modifyWriter fun w => { w with types := w.types.atLevel id .withChildren }
      return row) := by
  rw [typeWithin]
  cases e with
  | reference => rfl
  | definition =>
      refine bind_congr fun _ => bind_congr fun row => bind_congr fun v =>
        ite_congr rfl (fun _ => rfl) fun _ => bind_congr fun _ => ?_
      cases row <;> rfl

end Members

end Writing

end CilCatalog
