import CilCatalog.Proofs.Writing.Settled

/-!
# Writing breaks no contract

A writer that asks nothing may be given a catalog in which anything stands: to write something of it is to succeed or to stop with a fault.  What is relied upon in every state is known already; here it is shown that the rows whose kinds are asked for are there.  `Safe` says so of a computation, and there is one lemma for each of them.  It needs no more than `Writer.Calm`, which it keeps, whether it succeeds or fails.

Only nesting has to come to an end.  Where it need not, a writer stops without saying why; with `deep` that may happen.

* `Safe.serve`: no request breaks a contract.
-/

namespace CilCatalog

open Live

/-- An outcome that is as it should be: a result is as it is said to be, and a failure is a fault.  If types may be nested too deep, there may be no more to say. -/
def Expected {α : Type} (deep : Prop) (Q : α → Prop) : Except (Failure WriteFault) α → Prop
  | .ok a                => Q a
  | .error (.fault _)    => True
  | .error (.internal m) => deep ∧ m = none

/-- Where the writer is calm, the computation leaves it so, and its outcome is as expected. -/
def Safe {α : Type} (deep : Prop) (x : Writing α) (Q : α → Prop) : Prop :=
  ∀ w : WriteState, w.writer.Calm → (x w).2.writer.Calm ∧ Expected deep Q (x w).1

theorem Expected.unbroken {α : Type} {Q : α → Prop} {x : Except (Failure WriteFault) α}
    (h : Expected False Q x) : Unbroken x := by
  rintro m rfl
  exact h.1

/-- The types that a type lists are in turn less than `n` deep, as far as they are in the catalog. -/
def Catalog.Fits (c : Catalog) : Nat → TypeEntity → Prop
  | 0,     _ => False
  | n + 1, e => ∀ d us, e.data? = some d → d.nestedTypes = some us → ∀ u ∈ us, ∀ e',
      c.types.get? u = some e' → c.Fits n e'

namespace Safe

variable {deep : Prop} {α β : Type} {x : Writing α} {P Q : α → Prop} {R : β → Prop}

/-! ### Computations -/

theorem pure {a : α} (h : Q a) : Safe deep (pure a : Writing α) Q := fun _ hw => ⟨hw, h⟩

theorem refuse {f : WriteFault} : Safe deep (Writing.refuse f : Writing α) Q :=
  fun _ hw => ⟨hw, trivial⟩

theorem bind {f : α → Writing β} (hx : Safe deep x P) (hf : ∀ a, P a → Safe deep (f a) R) :
    Safe deep (x >>= f) R := by
  intro w hw
  have hx := hx w hw
  cases h : x w with
  | mk r w₁ =>
      rw [h] at hx
      cases r with
      | ok a =>
          rw [run_bind_ok h]
          exact hf a hx.2 w₁ hx.1
      | error e =>
          rw [run_bind_error h]
          cases e <;> exact hx

theorem imp (hx : Safe deep x P) (h : ∀ a, P a → Q a) : Safe deep x Q := by
  intro w hw
  obtain ⟨calm, expected⟩ := hx w hw
  refine ⟨calm, ?_⟩
  generalize (x w).1 = r at expected ⊢
  cases r with
  | ok a => exact h a expected
  | error e => cases e <;> exact expected

theorem ite {p : Prop} [Decidable p] {x y : Writing α} (hx : p → Safe deep x Q)
    (hy : ¬ p → Safe deep y Q) : Safe deep (if p then x else y) Q := by
  split
  · next h => exact hx h
  · next h => exact hy h

/-- What is refused is not gone on with. -/
theorem guard {p : Prop} [Decidable p] {e : WriteFault} {f : PUnit → Writing α}
    (h : Safe deep (f ⟨⟩) Q) : Safe deep (if p then Writing.refuse e >>= f else f ⟨⟩) Q :=
  ite (fun _ => bind (P := fun _ => False) refuse fun _ h => h.elim) fun _ => h

/-- There is something whose kind is asked for. -/
theorem bind_askable {b : Bool} {f : Unit → Writing α} (hb : b = false) (h : Safe deep (f ()) Q) :
    Safe deep (Writing.askable b >>= f) Q := by
  subst hb
  exact h

theorem mapM {f : α → Writing β} {as : List α} (hf : ∀ a ∈ as, Safe deep (f a) R) :
    Safe deep (as.mapM f) fun bs => ∀ b ∈ bs, R b := by
  induction as with
  | nil => exact pure nofun
  | cons a as ih =>
      rw [List.forall_mem_cons] at hf
      rw [List.mapM_cons]
      exact hf.1.bind fun _ hb => (ih hf.2).bind fun _ hbs => pure (List.forall_mem_cons.2 ⟨hb, hbs⟩)

theorem each {f : α → Writing β} (hf : ∀ a, Safe deep (f a) fun _ => True) (as : List α) :
    Safe deep (as.mapM f) fun _ => True :=
  (mapM fun a _ => hf a).imp fun _ _ => trivial

theorem optional {f : α → Writing β} (hf : ∀ a, Safe deep (f a) fun _ => True) (o : Option α) :
    Safe deep (o.mapM f) fun _ => True := by
  cases o with
  | none => exact pure trivial
  | some a =>
      rw [Option.mapM_some, map_eq_pure_bind]
      exact (hf a).bind fun _ _ => pure trivial

theorem store : Safe deep Writing.store fun _ => True := fun _ hw => ⟨hw, trivial⟩

theorem writer : Safe deep Writing.writer Writer.Calm := fun _ hw => ⟨hw, hw⟩

theorem modifyStore (f : Store → Store) : Safe deep (Writing.modifyStore f) fun _ => True :=
  fun _ hw => ⟨hw, trivial⟩

theorem modifyWriter {f : Writer → Writer} (h : ∀ v : Writer, v.Calm → (f v).Calm) :
    Safe deep (Writing.modifyWriter f) fun _ => True :=
  fun w hw => ⟨h w.writer hw, trivial⟩

theorem making {make : ImageId → Store → α × Store} (h : ∀ i s, Q (make i s).1) :
    Safe deep (Writing.making make) Q :=
  fun w hw => ⟨hw, h w.writer.image w.store⟩

theorem bind_lookUp {named : Bool} {m : TokenMap named β} {t : Token} {f : β → Writing α}
    (h : ∀ b, m.get? t = some b → Safe deep (f b) Q) : Safe deep (Writing.lookUp m t >>= f) Q := by
  unfold Writing.lookUp
  cases hm : m.get t with
  | ok b => exact h b (TokenMap.get?_of_get hm)
  | error e => exact bind (P := fun _ => False) refuse fun _ h => h.elim

theorem checkLevel (highest asked : Level) :
    Safe deep (Writing.checkLevel highest asked) fun _ => True :=
  ite (fun _ => refuse) fun _ => pure trivial

theorem forPresent {list : Option (List α)} {f : List α → Writing Unit}
    (hf : ∀ as, list = some as → Safe deep (f as) fun _ => True) :
    Safe deep (Writing.forPresent list f) fun _ => True := by
  cases list with
  | none => exact pure trivial
  | some as => exact hf as rfl

/-! ### Arguments -/

theorem argument {e : Except (Failure ArgumentFault) α} (h : Unbroken e) :
    Safe deep (Writing.argument e) fun _ => True := by
  cases e with
  | ok a => exact pure trivial
  | error e =>
      obtain ⟨f, rfl⟩ := unbroken_iff.1 h e rfl
      exact refuse

theorem unsignedOf (node : String) (i : Nat) (a : SigTree) :
    Safe deep (Writing.argument (Writing.unsignedOf node i a)) fun _ => True :=
  argument (Writing.unbroken_unsignedOf node i a)

theorem checkCount (node : String) (due found : Nat) :
    Safe deep (Writing.argument (Writing.checkCount node due found)) fun _ => True :=
  argument (Writing.unbroken_checkCount node due found)

/-! ### Assemblies, modules and types -/

/-- A writer that asks nothing is told nothing. -/
theorem askForAssembly (name : Bytes) : Safe deep (Writing.askForAssembly name) fun _ => True := by
  refine writer.bind fun v hv => ?_
  rw [hv.hooks]
  exact pure trivial

theorem askForType (assembly : Row) (id : TypeIdentity) :
    Safe deep (Writing.askForType assembly id) fun r => r = .null := by
  refine writer.bind fun v hv => ?_
  rw [hv.hooks]
  exact pure rfl

theorem assemblyRow (name : Bytes) : Safe deep (Writing.assemblyRow name) fun _ => True := by
  have remember : ∀ {x : Writing Row}, Safe deep x (fun _ => True) → Safe deep (do
      let r ← x
      Writing.modifyWriter fun w => { w with assemblies := w.assemblies ++ [(name, r)] }
      return r) fun _ => True :=
    fun h => h.bind fun r _ =>
      (modifyWriter fun _ hv => hv.noteAssembly name r).bind fun _ _ => pure trivial
  refine guard (writer.bind fun v _ => ?_)
  split
  · exact pure trivial
  · refine (askForAssembly name).bind fun a _ => store.bind fun s _ => writer.bind fun v _ => ?_
    dsimp only
    split
    · exact remember (pure trivial)
    · exact remember (making fun _ _ => trivial)

theorem moduleRow (name : Bytes) : Safe deep (Writing.moduleRow name) fun _ => True := by
  refine store.bind fun s _ => writer.bind fun v _ => ?_
  split
  · exact pure trivial
  · exact making fun _ _ => trivial

/-- A reference with a scope is a type. -/
theorem referenceIn {scope : Row} (h : scope.isNull = false) (ns name : Bytes) :
    Safe deep (Writing.referenceIn scope ns name) (·.isNamedType = true) := by
  rw [Writing.referenceIn_eq h]
  refine store.bind fun s _ => writer.bind fun v _ => ?_
  split
  · next r hr =>
      refine pure ?_
      have his := List.find?_some hr
      unfold Writing.isTypeReference at his
      split at his
      · rfl
      · exact nomatch his
  · exact making fun _ _ => rfl

theorem nestedDefinition (o : TypeId) (name : Bytes) :
    Safe deep (Writing.nestedDefinition o name) (·.isNamedType = true) := by
  rw [Writing.nestedDefinition_eq]
  refine store.bind fun s _ => ?_
  split
  · exact pure rfl
  · exact (making fun _ _ => trivial).bind (P := fun _ => True) fun _ _ => pure rfl

theorem topDefinition (ns name : Bytes) :
    Safe deep (Writing.topDefinition ns name) (·.isNamedType = true) := by
  refine store.bind fun s _ => writer.bind fun v _ => ?_
  split
  · exact pure rfl
  · exact (making fun _ _ => trivial).bind (P := fun _ => True) fun _ _ => pure rfl

theorem rowInside {outer : Row} (h : outer.isNull = false) (name : Bytes) :
    Safe deep (Writing.rowInside outer name) (·.isNamedType = true) := by
  refine bind_askable h ?_
  cases outer with
  | typeDef t => exact nestedDefinition t name
  | typeRef => exact referenceIn rfl _ _
  | _ => exact refuse

theorem rememberType (id : TypeIdentity) {resolve : Writing Row}
    (h : Safe deep resolve (·.isNamedType = true)) :
    Safe deep (Writing.rememberType id resolve) (·.isNamedType = true) := by
  refine writer.bind fun v hv => ?_
  split
  · next w hw =>
      obtain ⟨e, he, rfl⟩ := Memory.mem_of_find? hw
      exact pure (hv.types e he)
  · exact h.bind fun _ hr => (modifyWriter fun _ hv => hv.noteType hr id).bind fun _ _ => pure hr

/-- A type is the global one, or is looked up with its assembly. -/
theorem resolution (id : TypeIdentity) {find : Row → Writing Row}
    (h : ∀ a, Safe deep (find a) (·.isNamedType = true)) :
    Safe deep (do
      if Writing.isGlobalType id then return .typeDef ((← Writing.store).globalType (← Writing.writer).image)
      let assembly ← match id.assembly with
        | none   => Pure.pure .null
        | some n => Writing.assemblyRow n
      let answer ← Writing.askForType assembly id
      if !answer.isNull then
        if assembly.isNull && answer.kind? != some .typeDef then
          Writing.refuse (.answeredBy id.name answer.kindName)
        return answer
      find assembly) (·.isNamedType = true) := by
  -- the question is the same with an assembly and without one
  have asked : ∀ assembly, Safe deep (do
      let answer ← Writing.askForType assembly id
      if !answer.isNull then
        if assembly.isNull && answer.kind? != some .typeDef then
          Writing.refuse (.answeredBy id.name answer.kindName)
        return answer
      find assembly) (·.isNamedType = true) := by
    refine fun assembly => (askForType assembly id).bind ?_
    rintro _ rfl
    exact h assembly
  refine ite (fun _ => store.bind fun s _ => writer.bind fun v _ => pure rfl) fun _ => ?_
  cases id.assembly with
  | none => exact asked .null
  | some n => exact (assemblyRow n).bind fun a _ => asked a

theorem typeRowIn (names : List Bytes) (id : TypeIdentity) :
    Safe deep (Writing.typeRowIn names id) (·.isNamedType = true) := by
  induction names generalizing id with
  | nil =>
      rw [Writing.typeRowIn]
      exact rememberType id (resolution id fun a => ite (fun _ => topDefinition _ _) fun ha =>
        referenceIn (eq_false_of_ne_true ha) _ _)
  | cons outer rest ih =>
      rw [Writing.typeRowIn]
      exact rememberType id (resolution id fun _ => (ih _).bind fun r hr =>
        rowInside (Row.isNull_of_isNamedType hr) _)

theorem typeRow (id : TypeIdentity) : Safe deep (Writing.typeRow id) (·.isNamedType = true) :=
  typeRowIn _ id

variable (c : Catalog)

theorem typeOfToken (t : Token) : Safe deep (Writing.typeOfToken c t) (·.isNamedType = true) :=
  bind_lookUp fun _ _ => typeRow _

/-! ### Signatures -/

/-- Whatever a tree is written as. -/
structure Tree (deep : Prop) (t : SigTree) : Prop where
  row : Safe deep (Writing.rowOfTree c t) (·.isNull = false)
  type : Safe deep (Writing.typeSigOf c t) fun _ => True
  call : Safe deep (Writing.callSigOf c t) fun _ => True

theorem typeSigsOf {as : List SigTree} (h : ∀ a ∈ as, Tree c deep a) :
    Safe deep (Writing.typeSigsOf c as) fun _ => True := by
  induction as with
  | nil => exact pure trivial
  | cons a as ih =>
      rw [List.forall_mem_cons] at h
      exact h.1.type.bind fun _ _ => (ih h.2).bind fun _ _ => pure trivial

theorem typeSigOfCode {code : UInt8} {as : List SigTree} (h : ∀ a ∈ as, Tree c deep a) :
    Safe deep (Writing.typeSigOfCode c code as) fun _ => True := by
  rw [Writing.typeSigOfCode_eq]
  split
  · exact refuse
  · split
    · exact (checkCount _ _ _).bind fun _ _ => pure trivial
    · split
      -- what needs nothing but numbers and tokens goes first; the rest needs its arguments one by one
      all_goals first
        | exact refuse
        | exact (unsignedOf _ _ _).bind fun _ _ => pure trivial
        | exact (typeOfToken c _).bind fun _ _ => pure trivial
        | simp only [List.forall_mem_cons] at h
      all_goals first
        | exact h.1.type.bind fun _ _ => pure trivial
        | exact h.1.call.bind fun _ _ => ite (fun _ => pure trivial) fun _ => refuse
        | exact h.1.type.bind fun _ _ =>
            (argument (Writing.unbroken_arrayShape _)).bind fun _ _ => pure trivial
        | exact h.1.type.bind fun _ _ => (unsignedOf _ _ _).bind fun _ _ => pure trivial
        | exact h.1.type.bind fun _ _ => refuse
        | exact h.1.row.bind fun _ _ => h.2.1.type.bind fun _ _ => pure trivial
        | exact (unsignedOf _ _ _).bind fun _ _ => h.2.1.type.bind fun _ _ => pure trivial
        | exact h.1.type.bind fun _ _ => (unsignedOf _ _ _).bind fun _ _ =>
            (checkCount _ _ _).bind fun _ _ => (typeSigsOf c h.2.2).bind fun _ _ => pure trivial

theorem parametersOf {after : Bool} {as : List SigTree} (h : ∀ a ∈ as, Tree c deep a) :
    Safe deep (Writing.parametersOf c after as) fun _ => True := by
  induction as generalizing after with
  | nil => exact pure trivial
  | cons a as ih =>
      rw [List.forall_mem_cons] at h
      rw [Writing.parametersOf]
      exact ite (fun _ => guard (ih h.2)) fun _ => h.1.type.bind fun _ _ => (ih h.2).bind fun _ _ =>
        pure trivial

theorem methodSigOf {k : CallingConvention} (hk : k.isMethodLike = true) {f : UInt8}
    (hf : f &&& CallingConvention.mask = 0) {g : UInt32} {i : Nat} {as : List SigTree}
    (h : ∀ a ∈ as, Tree c deep a) : Safe deep (Writing.methodSigOf c k f g i as) fun _ => True := by
  rw [Writing.methodSigOf_eq hk hf]
  split
  · exact refuse
  · exact (unsignedOf _ _ _).bind fun _ _ => refuse
  · simp only [List.forall_mem_cons] at h
    exact (unsignedOf _ _ _).bind fun _ _ => h.2.1.type.bind fun _ _ =>
      (parametersOf c h.2.2).bind fun _ _ => guard (pure trivial)

theorem countedTypesOf {k : CallingConvention} {as : List SigTree} (h : ∀ a ∈ as, Tree c deep a) :
    Safe deep (Writing.countedTypesOf c k as) fun _ => True := by
  rw [Writing.countedTypesOf_eq]
  split
  · exact refuse
  · rw [List.forall_mem_cons] at h
    exact (unsignedOf _ _ _).bind fun _ _ => (checkCount _ _ _).bind fun _ _ => typeSigsOf c h.2

theorem callSigOfCode {code : UInt8} {as : List SigTree} (h : ∀ a ∈ as, Tree c deep a) :
    Safe deep (Writing.callSigOf c (.callSig code as)) fun _ => True := by
  rw [Writing.callSigOf_eq]
  split
  · exact refuse
  · exact refuse
  · rw [List.forall_mem_cons] at h
    refine (argument (Writing.unbroken_integerOf _ _ _)).bind fun n _ => ?_
    split
    · exact refuse
    · next hf =>
        have hf := Writing.mask_of_flagsOf hf
        refine ite (fun hk => ?_) fun _ => ite (fun _ => refuse) fun _ => ?_
        · refine ite (fun _ => methodSigOf c hk hf h.2) fun _ => ?_
          split
          · exact refuse
          · simp only [List.forall_mem_cons] at h
            exact (unsignedOf _ _ _).bind fun _ _ => methodSigOf c hk hf h.2.2
        · split
          · simp only [List.forall_mem_cons] at h
            exact h.2.1.type.bind fun _ _ => pure trivial
          · exact refuse
          · exact (countedTypesOf c h.2).bind fun _ _ => pure trivial
          · exact (countedTypesOf c h.2).bind fun _ _ => pure trivial

theorem tree (t : SigTree) : Tree c deep t := by
  induction t using SigTree.induction with
  | h t ih =>
      constructor
      · unfold Writing.rowOfTree
        split
        · exact (typeOfToken c _).imp fun _ => Row.isNull_of_isNamedType
        · exact (typeSigOfCode c ih).bind fun _ _ => making fun _ _ => rfl
        · exact refuse
      · unfold Writing.typeSigOf
        split
        · exact typeSigOfCode c ih
        · exact refuse
      · cases t with
        | callSig => exact callSigOfCode c ih
        | _ => exact refuse

theorem rowOfTree (t : SigTree) : Safe deep (Writing.rowOfTree c t) (·.isNull = false) :=
  (tree c t).row

theorem callSigOf (t : SigTree) : Safe deep (Writing.callSigOf c t) fun _ => True := (tree c t).call

/-! ### Fields and methods -/

theorem resolveField (id : MemberIdentity) :
    Safe deep (Writing.resolveField c id) (·.isNull = false) := by
  rw [Writing.resolveField_eq]
  refine (rowOfTree c _).bind fun parent hp => (callSigOf c _).bind fun sig _ =>
    guard (bind_askable hp ?_)
  split
  · refine store.bind fun s _ => ?_
    split
    · exact pure rfl
    · exact (making fun _ _ => trivial).bind (P := fun _ => True) fun _ _ => pure rfl
  · exact making fun _ _ => rfl

theorem resolveMethod (id : MemberIdentity) :
    Safe deep (Writing.resolveMethod c id) (·.isNull = false) := by
  rw [Writing.resolveMethod_eq]
  refine (rowOfTree c _).bind fun parent hp => (callSigOf c _).bind fun sig _ =>
    guard (bind_askable hp ?_)
  split
  · refine store.bind fun s _ => ?_
    split
    · exact pure rfl
    · exact (making fun _ _ => trivial).bind (P := fun _ => True) fun _ _ => pure rfl
  · exact making fun _ _ => rfl

theorem fieldRow (id : MemberIdentity) : Safe deep (Writing.fieldRow c id) (·.isNull = false) := by
  refine writer.bind fun v hv => ?_
  split
  · next w hw =>
      obtain ⟨e, he, rfl⟩ := Memory.mem_of_find? hw
      exact pure (hv.fields e he)
  · exact (resolveField c id).bind fun _ hr =>
      (modifyWriter fun _ hv => hv.noteField hr id).bind fun _ _ => pure hr

theorem methodRow (id : MemberIdentity) : Safe deep (Writing.methodRow c id) (·.isNull = false) := by
  refine writer.bind fun v hv => ?_
  split
  · next w hw =>
      obtain ⟨e, he, rfl⟩ := Memory.mem_of_find? hw
      exact pure (hv.methods e he)
  · exact (resolveMethod c id).bind fun _ hr =>
      (modifyWriter fun _ hv => hv.noteMethod hr id).bind fun _ _ => pure hr

theorem fieldOfToken (t : Token) : Safe deep (Writing.fieldOfToken c t) (·.isNull = false) :=
  bind_lookUp fun _ _ => fieldRow c _

theorem methodOfToken (t : Token) : Safe deep (Writing.methodOfToken c t) (·.isNull = false) :=
  bind_lookUp fun _ _ => methodRow c _

theorem definitionOfToken (t : Token) : Safe deep (Writing.definitionOfToken c t) fun _ => True := by
  refine (methodOfToken c t).bind fun r hr => bind_askable hr ?_
  split
  · exact pure trivial
  · exact refuse

/-! ### Parts of definitions -/

theorem customAttributes (as : Option (List CustomAttribute)) :
    Safe deep (Writing.customAttributes c as) fun _ => True :=
  each (fun _ => (methodOfToken c _).bind fun _ _ => pure trivial) _

theorem rowsOfTrees (ts : Option (List SigTree)) :
    Safe deep (Writing.rowsOfTrees c ts) fun _ => True :=
  each (fun t => (rowOfTree c t).imp fun _ _ => trivial) _

theorem genericParams (ps : Option (List GenericParameter)) :
    Safe deep (Writing.genericParams c ps) fun _ => True :=
  each (fun _ => (rowsOfTrees c _).bind fun _ _ => pure trivial) _

theorem param (p : Parameter) : Safe deep (Writing.param c p) fun _ => True :=
  (customAttributes c _).bind fun _ _ => pure trivial

theorem accessor (t : Option Token) : Safe deep (Writing.accessor c t) fun _ => True := by
  cases t with
  | none => exact pure trivial
  | some t => exact (definitionOfToken c t).bind fun _ _ => pure trivial

theorem property (p : Property) : Safe deep (Writing.property c p) fun _ => True := by
  rw [Writing.property_eq]
  exact (callSigOf c _).bind fun _ _ => guard ((accessor c _).bind fun _ _ =>
    (accessor c _).bind fun _ _ => (customAttributes c _).bind fun _ _ => pure trivial)

theorem event (e : Event) : Safe deep (Writing.event c e) fun _ => True :=
  (rowOfTree c _).bind fun _ _ => (accessor c _).bind fun _ _ => (accessor c _).bind fun _ _ =>
    (accessor c _).bind fun _ _ => (customAttributes c _).bind fun _ _ => pure trivial

/-! ### Method bodies -/

theorem target (size : Nat) (n : Int32) : Safe deep (Writing.target size n) fun _ => True :=
  ite (fun _ => pure trivial) fun _ => refuse

theorem boundary (size : Nat) (n : Int32) : Safe deep (Writing.boundary size n) fun _ => True :=
  ite (fun _ => pure trivial) fun _ => target size n

theorem variableOperand (count : Nat) (op : OpCode) (n : Int32) :
    Safe deep (Writing.variableOperand count op n) fun _ => True :=
  ite (fun _ => refuse) fun _ => ite (fun _ => pure trivial) fun _ =>
    ite (fun _ => pure trivial) fun _ => refuse

theorem handlerType (n : Int32) : Safe deep (Writing.handlerType n) fun _ => True :=
  ite (fun _ => pure trivial) fun _ => refuse

theorem tokenOperand (t : SigTree) : Safe deep (Writing.tokenOperand c t) fun _ => True := by
  rw [Writing.tokenOperand_eq]
  split
  · exact (callSigOf c _).bind fun _ _ => ite (fun _ => pure trivial) fun _ => refuse
  · exact (rowOfTree c _).bind fun _ _ => pure trivial
  · exact (fieldOfToken c _).bind fun _ _ => pure trivial
  · exact refuse
  · exact (methodOfToken c _).bind fun _ _ => pure trivial
  · exact (methodOfToken c _).bind fun _ _ => (callSigOf c _).bind fun _ _ =>
      ite (fun _ => (making fun _ _ => trivial).bind (P := fun _ => True) fun _ _ => pure trivial)
        fun _ => refuse
  · exact refuse
  · exact refuse

theorem operand (size count : Nat) (op : OpCode) (o : Option Operand) :
    Safe deep (Writing.operand c size count op o) fun _ => True := by
  unfold Writing.operand
  cases op.operandType <;> rcases o with _ | o <;> try cases o
  all_goals first
    | exact pure trivial
    | exact refuse
    | exact tokenOperand c _
    | exact variableOperand _ _ _
    | exact (target _ _).bind fun _ _ => pure trivial
    | exact (each (target _) _).bind fun _ _ => pure trivial

theorem opCode (i : Instruction) : Safe deep (Writing.opCode i) fun _ => True := by
  rw [Writing.opCode_eq]
  split
  · exact pure trivial
  · exact refuse

theorem handler (size : Nat) (h : ExceptionHandler) :
    Safe deep (Writing.handler c size h) fun _ => True := by
  refine (target _ _).bind fun _ _ => (boundary _ _).bind fun _ _ => (boundary _ _).bind fun _ _ =>
    (target _ _).bind fun _ _ => (boundary _ _).bind fun _ _ => (handlerType _).bind fun _ _ => ?_
  cases h.catchType with
  | none => exact pure trivial
  | some t => exact (rowOfTree c t).bind fun _ _ => pure trivial

theorem body (b : MethodBody) : Safe deep (Writing.body c b) fun _ => True := by
  unfold Writing.body
  exact guard ((typeSigsOf c fun t _ => tree c t).bind fun _ _ => (each opCode _).bind fun _ _ =>
    (each (fun _ => (operand c _ _ _ _).bind fun _ _ => pure trivial) _).bind fun _ _ =>
      (each (handler c _) _).bind fun _ _ => pure trivial)

/-! ### Definitions -/

theorem defineType (t : TypeId) (d : TypeData) :
    Safe deep (Writing.defineType c t d) fun _ => True := by
  have rest : Safe deep (do
      let interfaces ← Writing.rowsOfTrees c d.interfaces
      let genericParams ← Writing.genericParams c d.genericParameters
      let customAttributes ← Writing.customAttributes c d.customAttributes
      let layout := d.layout.map fun l =>
        (⟨Writing.low16 l.packingSize, l.classSize.toUInt32⟩ : Live.ClassLayout)
      Writing.modifyStore (·.modifyType t fun l =>
        { l with interfaces, genericParams, customAttributes, layout })) fun _ => True :=
    (rowsOfTrees c _).bind fun _ _ => (genericParams c _).bind fun _ _ =>
      (customAttributes c _).bind fun _ _ => modifyStore _
  refine (modifyStore _).bind fun _ _ => ?_
  cases d.baseType with
  | none => exact rest
  | some tree => exact (rowOfTree c tree).bind fun _ _ => (modifyStore _).bind fun _ _ => rest

theorem defineField (f : FieldId) (d : FieldData) :
    Safe deep (Writing.defineField c f d) fun _ => True :=
  (customAttributes c _).bind fun _ _ => modifyStore _

theorem defineMethod (m : MethodId) (d : MethodData) :
    Safe deep (Writing.defineMethod c m d) fun _ => True := by
  have rest : Safe deep (do
      let overrides ← (d.overrides.getD []).mapM (Writing.methodOfToken c)
      Writing.modifyStore (·.modifyMethod m fun l => { l with overrides })
      let genericParams ← Writing.genericParams c d.genericParameters
      let customAttributes ← Writing.customAttributes c d.customAttributes
      let implMap ← d.implMap.mapM fun i => do
        return (⟨← Writing.moduleRow i.module, i.name, Writing.low16 i.attributes⟩ : Live.ImplMap)
      Writing.modifyStore (·.modifyMethod m fun l =>
        { l with genericParams, customAttributes, implMap })) fun _ => True :=
    (mapM fun t _ => methodOfToken c t).bind fun _ _ => (modifyStore _).bind fun _ _ =>
      (genericParams c _).bind fun _ _ => (customAttributes c _).bind fun _ _ =>
        (optional (fun _ => (moduleRow _).bind fun _ _ => pure trivial) _).bind fun _ _ =>
          modifyStore _
  refine (modifyStore _).bind fun _ _ => (each (param c) _).bind fun _ _ => (modifyStore _).bind
    fun _ _ => ?_
  cases d.body with
  | none => exact rest
  | some b => exact (body c b).bind fun _ _ => (modifyStore _).bind fun _ _ => rest

theorem field (e : FieldEntity) (level : Level) :
    Safe deep (Writing.field c e level) (·.isNull = false) := by
  rw [Writing.field_eq]
  refine (checkLevel _ _).bind fun _ _ => (fieldRow c _).bind fun row hr => writer.bind fun v _ =>
    ite (fun _ => pure hr) fun _ => ?_
  split
  · refine bind_askable hr ?_
    split
    · exact (defineField c _ _).bind fun _ _ =>
        (modifyWriter fun _ hv => hv.raiseField _ _).bind fun _ _ => pure rfl
    · exact store.bind fun _ _ => writer.bind fun _ _ => refuse
  · exact refuse

theorem method (e : MethodEntity) (level : Level) :
    Safe deep (Writing.method c e level) (·.isNull = false) := by
  rw [Writing.method_eq]
  refine (checkLevel _ _).bind fun _ _ => (methodRow c _).bind fun row hr => writer.bind fun v _ =>
    ite (fun _ => pure hr) fun _ => ?_
  split
  · refine bind_askable hr ?_
    split
    · exact (defineMethod c _ _).bind fun _ _ =>
        (modifyWriter fun _ hv => hv.raiseMethod _ _).bind fun _ _ => pure rfl
    · exact store.bind fun _ _ => writer.bind fun _ _ => refuse
  · exact refuse

theorem fields (ts : List Token) (level : Level) :
    Safe deep (Writing.fields c ts level) fun rs => ∀ r ∈ rs, r.isNull = false :=
  mapM fun _ _ => bind_lookUp fun _ _ => field c _ _

theorem methods (ts : List Token) (level : Level) :
    Safe deep (Writing.methods c ts level) fun rs => ∀ r ∈ rs, r.isNull = false :=
  mapM fun _ _ => bind_lookUp fun _ _ => method c _ _

/-! ### Types -/

theorem nestedIn (s : Store) (t : TypeId) {r : Row} (h : r.isNull = false) :
    Safe deep (Writing.nestedIn s t r) fun _ => True := by
  refine bind_askable h ?_
  split
  · exact ite (fun _ => pure trivial) fun _ => refuse
  · exact refuse

theorem fieldIn (s : Store) (t : TypeId) {r : Row} (h : r.isNull = false) :
    Safe deep (Writing.fieldIn s t r) fun _ => True := by
  refine bind_askable h ?_
  split
  · exact ite (fun _ => pure trivial) fun _ => refuse
  · exact refuse

theorem methodIn (s : Store) (t : TypeId) {r : Row} (h : r.isNull = false) :
    Safe deep (Writing.methodIn s t r) fun _ => True := by
  refine bind_askable h ?_
  split
  · exact ite (fun _ => pure trivial) fun _ => refuse
  · exact refuse

theorem defineMembers (t : TypeId) (d : TypeData) :
    Safe deep (Writing.defineMembers c t d) fun _ => True :=
  (forPresent fun _ _ => (fields c _ _).bind fun _ hrs => store.bind fun _ _ =>
    (mapM fun r hr => fieldIn _ t (hrs r hr)).bind fun _ _ => modifyStore _).bind fun _ _ =>
  (forPresent fun _ _ => (methods c _ _).bind fun _ hrs => store.bind fun _ _ =>
    (mapM fun r hr => methodIn _ t (hrs r hr)).bind fun _ _ => modifyStore _).bind fun _ _ =>
  (forPresent fun _ _ => (each (property c) _).bind fun _ _ => modifyStore _).bind fun _ _ =>
  forPresent fun _ _ => (each (event c) _).bind fun _ _ => modifyStore _

/-- The children of a type are put in place, where those nested in it can be written. -/
theorem children {t : TypeId} (id : TypeIdentity) {d : TypeData} (level : Level)
    {nested : TypeEntity → Writing Row}
    (h : ∀ us, d.nestedTypes = some us → ∀ u ∈ us, ∀ e, c.types.get? u = some e →
      Safe deep (nested e) (·.isNull = false)) :
    Safe deep (do
      if level = .withChildren then
        Writing.forPresent d.nestedTypes fun ts => do
          let rows ← ts.mapM fun n => do nested (← Writing.lookUp c.types n)
          let ns ← rows.mapM (Writing.nestedIn (← Writing.store) t)
          Writing.modifyStore (·.modifyType t fun l =>
            { l with nestedTypes := Writing.reordered ns l.nestedTypes })
        Writing.defineMembers c t d
        Writing.modifyWriter fun w => { w with types := w.types.atLevel id .withChildren }
      return Row.typeDef t) (·.isNull = false) := by
  refine ite (fun _ => ?_) fun _ => pure rfl
  refine (forPresent fun us hus => ?_).bind fun _ _ => (defineMembers c t d).bind fun _ _ =>
    (modifyWriter fun _ hv => hv.raiseType _ _).bind fun _ _ => pure rfl
  exact (mapM fun u hu => bind_lookUp (h us hus u hu)).bind fun _ hrs => store.bind fun s _ =>
    (mapM fun r hr => nestedIn s t (hrs r hr)).bind fun _ _ => modifyStore _

variable {c}

/-- A type is written, unless there is no end to the types nested in it. -/
theorem typeWithin {n : Nat} {e : TypeEntity} (level : Level) (h : deep ∨ c.Fits n e) :
    Safe deep (Writing.typeWithin c n e level) (·.isNull = false) := by
  induction n generalizing e with
  | zero => exact fun w hw => ⟨hw, h.resolve_right id, rfl⟩
  | succ n ih =>
      rw [Writing.typeWithin_eq]
      refine (checkLevel _ _).bind fun _ _ => (typeRow _).bind fun row hr => writer.bind fun v _ =>
        ite (fun _ => pure (Row.isNull_of_isNamedType hr)) fun _ => ?_
      split
      · next d hd =>
          have rest : ∀ t, Safe deep _ _ := fun t => children c (t := t) e.identity level
            fun us hus u hu e' he' => ih (h.imp_right fun h => h d us hd hus u hu e' he')
          refine bind_askable (Row.isNull_of_isNamedType hr) ?_
          split
          · exact ite (fun _ => (defineType c _ _).bind fun _ _ =>
              (modifyWriter fun _ hv => hv.raiseType _ _).bind fun _ _ => rest _) fun _ => rest _
          · exact store.bind fun _ _ => writer.bind fun _ _ => refuse
      · exact refuse

/-- No request breaks a contract, and none leaves the writer with rows that are not there. -/
theorem serve (h : deep ∨ ∀ e, c.Fits (c.types.size + 1) e) (q : Writer.Request) :
    Safe deep (Writer.serve c q) fun rs => ∀ r ∈ rs, r.isNull = false := by
  have type : ∀ e level, Safe deep (Writing.type c e level) (·.isNull = false) :=
    fun e level => typeWithin level (h.imp_right (· e))
  cases q with
  | type e level => exact (type e level).bind fun _ hr => pure (List.forall_mem_singleton.2 hr)
  | field e level => exact (field c e level).bind fun _ hr => pure (List.forall_mem_singleton.2 hr)
  | method e level =>
      exact (method c e level).bind fun _ hr => pure (List.forall_mem_singleton.2 hr)
  | types ts level => exact mapM fun _ _ => bind_lookUp fun _ _ => type _ _
  | fields ts level => exact fields c ts level
  | methods ts level => exact methods c ts level

end Safe

end CilCatalog
