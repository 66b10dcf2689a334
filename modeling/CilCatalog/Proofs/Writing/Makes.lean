import CilCatalog.Proofs.Live.Built
import CilCatalog.Proofs.Writing.Definitions

/-!
# What writing references makes

To write a reference, a signature, or a part of a definition, whatever the owner answers, is to make rows, types, fields and methods, and to remember them; nothing that there is is changed.  What holds of these steps, and of one after the other, holds of the whole.

* `Locating`, `Typing`, `Making`: relations of states that hold of the steps, first of looking types up, then of remembering them, and then of fields and methods, too.
* `Makes`: all that a computation does is within such a relation, whether it succeeds or fails.
* `Typing.rowOfTree`, `Making.methodOfToken`, `Making.body` and the like: the computations that do these steps only.
* `Changing`, `Defining`, `Shaping`: relations that hold of changing definitions, too.
-/

namespace CilCatalog

open Live

variable {R : WriteState → WriteState → Prop} {α β : Type}

/-- What is remembered anew is remembered as a reference, and so is what is not. -/
theorem Memory.level_append {ι : Type} [Identity ι] (m : Memory ι) (id id' : ι) (r : Row) :
    level (m ++ [(id, ⟨r, .reference⟩)]) id' = m.level id' := by
  rw [level, level, find?, find?, List.find?_append]
  cases List.find? (fun e => Identity.same e.1 id') m with
  | some e => rfl
  | none =>
      rw [Option.none_or, List.find?_singleton]
      split <;> rfl

/-- Another writer for the same owner that has written as much. -/
structure Writer.Likewise (v v' : Writer) : Prop where
  image : v'.image = v.image
  hooks : v'.hooks = v.hooks
  types : ∀ id, v'.types.level id = v.types.level id
  fields : ∀ id, v'.fields.level id = v.fields.level id
  methods : ∀ id, v'.methods.level id = v.methods.level id

namespace Writer.Likewise

variable (v : Writer) (r : Row)

/-- Questions and assemblies may be remembered. -/
theorem note (as : List (Bytes × Row)) (qs : List Question) :
    v.Likewise { v with assemblies := as, questions := qs } :=
  ⟨rfl, rfl, fun _ => rfl, fun _ => rfl, fun _ => rfl⟩

theorem type (id : TypeIdentity) : v.Likewise { v with types := v.types ++ [(id, ⟨r, .reference⟩)] } :=
  ⟨rfl, rfl, fun id' => v.types.level_append id id' r, fun _ => rfl, fun _ => rfl⟩

theorem field (id : MemberIdentity) :
    v.Likewise { v with fields := v.fields ++ [(id, ⟨r, .reference⟩)] } :=
  ⟨rfl, rfl, fun _ => rfl, fun id' => v.fields.level_append id id' r, fun _ => rfl⟩

theorem method (id : MemberIdentity) :
    v.Likewise { v with methods := v.methods ++ [(id, ⟨r, .reference⟩)] } :=
  ⟨rfl, rfl, fun _ => rfl, fun _ => rfl, fun id' => v.methods.level_append id id' r⟩

end Writer.Likewise

/-- Nothing but rows is made, which may go into the tables of modules. -/
structure Live.Store.OnlyRows (s s' : Store) : Prop where
  typeDefs : s'.typeDefs = s.typeDefs
  fieldDefs : s'.fieldDefs = s.fieldDefs
  methodDefs : s'.methodDefs = s.methodDefs
  types : ∀ i, (s'.image i).types = (s.image i).types
  images : s'.images.length = s.images.length
  nextRow : s.nextRow ≤ s'.nextRow

namespace Live.Store.OnlyRows

variable (s : Store)

theorem refl : s.OnlyRows s := ⟨rfl, rfl, rfl, fun _ => rfl, rfl, Nat.le_refl _⟩

variable {s} in
theorem trans {s' s'' : Store} (h : s.OnlyRows s') (h' : s'.OnlyRows s'') : s.OnlyRows s'' where
  typeDefs := h'.typeDefs.trans h.typeDefs
  fieldDefs := h'.fieldDefs.trans h.fieldDefs
  methodDefs := h'.methodDefs.trans h.methodDefs
  types i := (h'.types i).trans (h.types i)
  images := h'.images.trans h.images
  nextRow := Nat.le_trans h.nextRow h'.nextRow

theorem addRow (make : Nat → Row) : s.OnlyRows (s.addRow make).2 :=
  ⟨rfl, rfl, rfl, fun _ => rfl, rfl, Nat.le_succ _⟩

/-- A new row may go into a table of a module. -/
theorem addRowTo (i : ImageId) (make : Nat → Row) {f : Image → Image}
    (hf : ∀ d, (f d).types = d.types) : s.OnlyRows ((s.addRow make).2.modifyImage i f) where
  typeDefs := rfl
  fieldDefs := rfl
  methodDefs := rfl
  types j := by
    rcases (s.addRow make).2.image_modifyImage_or i f j with heq | ⟨-, heq⟩
    · rw [heq]
      rfl
    · rw [heq, hf]
      rfl
  images := length_modifyImage ..
  nextRow := Nat.le_succ _

end Live.Store.OnlyRows

/-- Relations between a state and what comes of looking for types, modules and assemblies in it: where they are not there, rows and types are made, and what the owner is asked is noted. -/
structure Locating (R : WriteState → WriteState → Prop) : Prop where
  trans : ∀ {w w' w''}, R w w' → R w' w'' → R w w''
  rows : ∀ {w : WriteState} {s : Store}, w.store.OnlyRows s → R w (w.inStore s)
  addType : ∀ (w : WriteState) i ns name, R w (w.inStore (w.store.createType i ns name).2)
  addNestedType : ∀ (w : WriteState) i ns name o,
    R w (w.inStore (w.store.createNestedType i ns name o).2)
  note : ∀ (w : WriteState) as qs,
    R w { w with writer := { w.writer with assemblies := as, questions := qs } }

/-- Relations that hold of remembering types, too. -/
structure Typing (R : WriteState → WriteState → Prop) : Prop extends Locating R where
  noteType : ∀ (w : WriteState) id r,
    R w { w with writer := { w.writer with types := w.writer.types ++ [(id, ⟨r, .reference⟩)] } }

/-- Relations between a state and what comes of making something in it, or of remembering it. -/
structure Making (R : WriteState → WriteState → Prop) : Prop extends Typing R where
  addField : ∀ (w : WriteState) t d, R w (w.inStore (w.store.createField t d).2)
  addMethod : ∀ (w : WriteState) t d, R w (w.inStore (w.store.createMethod t d).2)
  noteField : ∀ (w : WriteState) id r,
    R w { w with writer := { w.writer with fields := w.writer.fields ++ [(id, ⟨r, .reference⟩)] } }
  noteMethod : ∀ (w : WriteState) id r,
    R w { w with writer := { w.writer with methods := w.writer.methods ++ [(id, ⟨r, .reference⟩)] } }

/-- Whatever a computation does to the state is within a relation. -/
def Makes (R : WriteState → WriteState → Prop) (x : Writing α) : Prop := ∀ w, R w (x w).2

theorem Makes.gives {x : Writing α} {a : α} {w w' : WriteState} (h : Makes R x)
    (hg : Gives x w a w') : R w w' := by
  have := h w
  rwa [show x w = (.ok a, w') from hg] at this

namespace Locating

variable (m : Locating R)

include m

theorem refl (w : WriteState) : R w w := m.rows (.refl w.store)

/-! ### Computations -/

theorem pure (a : α) : Makes R (pure a : Writing α) := m.refl

theorem refuse (f : WriteFault) : Makes R (Writing.refuse f : Writing α) := m.refl

theorem throw (f : Failure WriteFault) : Makes R (throw f : Writing α) := m.refl

theorem bind {x : Writing α} {f : α → Writing β} (hx : Makes R x) (hf : ∀ a, Makes R (f a)) :
    Makes R (x >>= f) := by
  intro w
  have hx := hx w
  cases h : x w with
  | mk r w₁ =>
      rw [h] at hx
      cases r with
      | error e => rwa [run_bind_error h]
      | ok a =>
          rw [run_bind_ok h]
          exact m.trans hx (hf a w₁)

omit m in
theorem ite {p : Prop} [Decidable p] {x y : Writing α} (hx : Makes R x) (hy : Makes R y) :
    Makes R (if p then x else y) := by
  split
  · exact hx
  · exact hy

/-- What is refused is not gone on with. -/
theorem guard {p : Prop} [Decidable p] {e : WriteFault} {f : PUnit → Writing α}
    (h : Makes R (f ⟨⟩)) : Makes R (if p then Writing.refuse e >>= f else f ⟨⟩) :=
  ite (m.bind (m.refuse e) fun _ => h) h

theorem mapM {f : α → Writing β} (hf : ∀ a, Makes R (f a)) (as : List α) :
    Makes R (as.mapM f) := by
  induction as with
  | nil => exact m.pure []
  | cons a as ih =>
      rw [List.mapM_cons]
      exact m.bind (hf a) fun _ => m.bind ih fun _ => m.pure _

theorem optional {f : α → Writing β} (hf : ∀ a, Makes R (f a)) (o : Option α) :
    Makes R (o.mapM f) := by
  cases o with
  | none => exact m.pure none
  | some a =>
      rw [Option.mapM_some, map_eq_pure_bind]
      exact m.bind (hf a) fun _ => m.pure _

theorem store : Makes R Writing.store := m.refl

theorem writer : Makes R Writing.writer := m.refl

omit m in
theorem modifyWriter {f : Writer → Writer} (h : ∀ w : WriteState, R w { w with writer := f w.writer }) :
    Makes R (Writing.modifyWriter f) := h

omit m in
theorem making {make : ImageId → Store → α × Store}
    (h : ∀ i w, R w (w.inStore (make i w.store).2)) : Makes R (Writing.making make) :=
  fun w => h w.writer.image w

omit m in
theorem modifyStore {f : Store → Store} (h : ∀ w, R w (w.inStore (f w.store))) :
    Makes R (Writing.modifyStore f) := h

theorem lookUp {named : Bool} (t : TokenMap named α) (k : Token) :
    Makes R (Writing.lookUp t k) := by
  unfold Writing.lookUp
  split
  · exact m.pure _
  · exact m.refuse _

theorem argument (e : Except (Failure ArgumentFault) α) : Makes R (Writing.argument e) := by
  cases e with
  | ok a => exact m.pure a
  | error f => exact m.throw _

theorem checkLevel (highest asked : Level) : Makes R (Writing.checkLevel highest asked) :=
  ite (m.refuse _) (m.pure _)

theorem askable (isNull : Bool) : Makes R (Writing.askable isNull) := ite (m.throw _) (m.pure _)

theorem tryMaking {make : ImageId → Store → Except (Failure WriteFault) (α × Store)}
    (h : ∀ {i w a s}, make i w.store = .ok (a, s) → R w (w.inStore s)) :
    Makes R (Writing.tryMaking make) := by
  intro w
  cases hm : make w.writer.image w.store with
  | ok as =>
      rw [Writing.run_tryMaking hm]
      exact h hm
  | error e =>
      rw [Writing.tryMaking, run_bind_ok (gives_get.2 ⟨rfl, rfl⟩), hm]
      exact m.refl w

/-! ### Assemblies, modules and types -/

theorem askForAssembly (name : Bytes) : Makes R (Writing.askForAssembly name) := by
  refine m.bind m.writer fun v => ?_
  split
  · exact m.pure _
  · exact m.bind (modifyWriter fun w => m.note w _ _) fun _ => m.pure _

theorem askForType (assembly : Row) (id : TypeIdentity) :
    Makes R (Writing.askForType assembly id) := by
  refine m.bind m.writer fun v => ?_
  split
  · exact m.pure _
  · exact m.bind (modifyWriter fun w => m.note w _ _) fun _ => m.pure _

theorem assemblyRow (name : Bytes) : Makes R (Writing.assemblyRow name) := by
  refine m.guard (m.bind m.writer fun v => ?_)
  split
  · exact m.pure _
  · refine m.bind (m.askForAssembly name) fun a => m.bind m.store fun s => m.bind m.writer fun v => ?_
    have remember : ∀ {x : Writing Row}, Makes R x → Makes R (do
        let r ← x
        Writing.modifyWriter fun w => { w with assemblies := w.assemblies ++ [(name, r)] }
        return r) :=
      fun h => m.bind h fun r => m.bind (modifyWriter fun w => m.note w _ _) fun _ => m.pure r
    dsimp only
    split
    · exact remember (m.pure _)
    · exact remember (making fun i w => m.rows (.addRowTo w.store i (.assemblyRef · (.ofText name)) fun _ => rfl))

theorem moduleRow (name : Bytes) : Makes R (Writing.moduleRow name) := by
  refine m.bind m.store fun s => m.bind m.writer fun v => ?_
  split
  · exact m.pure _
  · exact making fun i w => m.rows (.addRowTo w.store i (.moduleRef · name) fun _ => rfl)

theorem referenceIn (scope : Row) (ns name : Bytes) : Makes R (Writing.referenceIn scope ns name) := by
  refine m.bind m.store fun s => m.bind m.writer fun v => ?_
  split
  · exact m.pure _
  · refine m.tryMaking fun {i w _ _} h => ?_
    rw [Store.createTypeRef] at h
    split at h
    · cases h
    · cases h
      exact m.rows (.addRowTo w.store i (.typeRef · ns name scope) fun _ => rfl)

theorem nestedDefinition (o : TypeId) (name : Bytes) :
    Makes R (Writing.nestedDefinition o name) := by
  rw [Writing.nestedDefinition_eq]
  refine m.bind m.store fun s => ?_
  split
  · exact m.pure _
  · exact m.bind (making fun i w => m.addNestedType w i [] name o) fun _ => m.pure _

theorem topDefinition (ns name : Bytes) : Makes R (Writing.topDefinition ns name) := by
  refine m.bind m.store fun s => m.bind m.writer fun v => ?_
  split
  · exact m.pure _
  · exact m.bind (making fun i w => m.addType w i ns name) fun _ => m.pure _

theorem rowInside (outer : Row) (name : Bytes) : Makes R (Writing.rowInside outer name) := by
  refine m.bind (m.askable _) fun _ => ?_
  cases outer with
  | typeDef t => exact m.nestedDefinition t name
  | typeRef => exact m.referenceIn _ _ _
  | _ => exact m.refuse _

/-- A type is the global one, or is what the owner says, or is looked up with its assembly. -/
theorem resolution (id : TypeIdentity) {lookUp : Row → Writing Row} (h : ∀ a, Makes R (lookUp a)) :
    Makes R (do
      if Writing.isGlobalType id then return .typeDef ((← Writing.store).globalType (← Writing.writer).image)
      let assembly ← match id.assembly with
        | none   => Pure.pure .null
        | some n => Writing.assemblyRow n
      let answer ← Writing.askForType assembly id
      if !answer.isNull then
        if assembly.isNull && answer.kind? != some .typeDef then
          Writing.refuse (.answeredBy id.name answer.kindName)
        return answer
      lookUp assembly) := by
  have asked : ∀ assembly, Makes R (do
      let answer ← Writing.askForType assembly id
      if !answer.isNull then
        if assembly.isNull && answer.kind? != some .typeDef then
          Writing.refuse (.answeredBy id.name answer.kindName)
        return answer
      lookUp assembly) := fun assembly =>
    m.bind (m.askForType assembly id) fun answer => ite (m.guard (m.pure answer)) (h assembly)
  refine ite (m.bind m.store fun s => m.bind m.writer fun v => m.pure _) ?_
  cases id.assembly with
  | none => exact asked .null
  | some n => exact m.bind (m.assemblyRow n) asked

end Locating

namespace Typing

open Locating

variable (m : Typing R)

include m

theorem rememberType (id : TypeIdentity) {resolve : Writing Row} (h : Makes R resolve) :
    Makes R (Writing.rememberType id resolve) := by
  refine m.bind m.writer fun v => ?_
  split
  · exact m.pure _
  · exact m.bind h fun r => m.bind (modifyWriter fun w => m.noteType w _ _) fun _ => m.pure r

theorem typeRowIn (names : List Bytes) (id : TypeIdentity) :
    Makes R (Writing.typeRowIn names id) := by
  induction names generalizing id with
  | nil =>
      rw [Writing.typeRowIn]
      exact m.rememberType id (m.resolution id fun a => ite (m.topDefinition _ _) (m.referenceIn _ _ _))
  | cons outer rest ih =>
      rw [Writing.typeRowIn]
      exact m.rememberType id (m.resolution id fun _ => m.bind (ih _) fun r => m.rowInside r _)

theorem typeRow (id : TypeIdentity) : Makes R (Writing.typeRow id) := m.typeRowIn _ id

theorem typeOfToken (c : Catalog) (t : Token) : Makes R (Writing.typeOfToken c t) :=
  m.bind (m.lookUp _ t) fun _ => m.typeRow _

end Typing

/-! ### Signatures -/

/-- Whatever a tree is written as, is made within a relation. -/
structure TreeMakes (R : WriteState → WriteState → Prop) (c : Catalog) (t : SigTree) : Prop where
  row : Makes R (Writing.rowOfTree c t)
  type : Makes R (Writing.typeSigOf c t)
  call : Makes R (Writing.callSigOf c t)

namespace Typing

open Locating

variable (m : Typing R) (c : Catalog)

include m

theorem typeSigsOf {as : List SigTree} (h : ∀ a ∈ as, TreeMakes R c a) :
    Makes R (Writing.typeSigsOf c as) := by
  induction as with
  | nil => exact m.pure []
  | cons a as ih =>
      rw [List.forall_mem_cons] at h
      exact m.bind h.1.type fun _ => m.bind (ih h.2) fun _ => m.pure _

theorem typeSigOfCode {code : UInt8} {as : List SigTree} (h : ∀ a ∈ as, TreeMakes R c a) :
    Makes R (Writing.typeSigOfCode c code as) := by
  rw [Writing.typeSigOfCode_eq]
  split
  · exact m.refuse _
  · split
    · exact m.bind (m.argument _) fun _ => m.pure _
    · split
      all_goals first
        | exact m.refuse _
        | exact m.bind (m.argument _) fun _ => m.pure _
        | exact m.bind (m.typeOfToken c _) fun _ => m.pure _
        | simp only [List.forall_mem_cons] at h
      all_goals first
        | exact m.bind h.1.type fun _ => m.pure _
        | exact m.bind h.1.call fun _ => ite (m.pure _) (m.refuse _)
        | exact m.bind h.1.type fun _ => m.bind (m.argument _) fun _ => m.pure _
        | exact m.bind h.1.type fun _ => m.refuse _
        | exact m.bind h.1.row fun _ => m.bind h.2.1.type fun _ => m.pure _
        | exact m.bind (m.argument _) fun _ => m.bind h.2.1.type fun _ => m.pure _
        | exact m.bind h.1.type fun _ => m.bind (m.argument _) fun _ =>
            m.bind (m.argument _) fun _ => m.bind (m.typeSigsOf c h.2.2) fun _ => m.pure _

theorem parametersOf {after : Bool} {as : List SigTree} (h : ∀ a ∈ as, TreeMakes R c a) :
    Makes R (Writing.parametersOf c after as) := by
  induction as generalizing after with
  | nil => exact m.pure _
  | cons a as ih =>
      rw [List.forall_mem_cons] at h
      rw [Writing.parametersOf]
      exact ite (m.guard (ih h.2)) (m.bind h.1.type fun _ => m.bind (ih h.2) fun _ => m.pure _)

theorem methodSigOf {k : CallingConvention} (hk : k.isMethodLike = true) {f : UInt8}
    (hf : f &&& CallingConvention.mask = 0) {g : UInt32} {i : Nat} {as : List SigTree}
    (h : ∀ a ∈ as, TreeMakes R c a) : Makes R (Writing.methodSigOf c k f g i as) := by
  rw [Writing.methodSigOf_eq hk hf]
  split
  · exact m.refuse _
  · exact m.bind (m.argument _) fun _ => m.refuse _
  · simp only [List.forall_mem_cons] at h
    exact m.bind (m.argument _) fun _ => m.bind h.2.1.type fun _ =>
      m.bind (m.parametersOf c h.2.2) fun _ => m.guard (m.pure _)

theorem countedTypesOf {k : CallingConvention} {as : List SigTree}
    (h : ∀ a ∈ as, TreeMakes R c a) : Makes R (Writing.countedTypesOf c k as) := by
  rw [Writing.countedTypesOf_eq]
  split
  · exact m.refuse _
  · rw [List.forall_mem_cons] at h
    exact m.bind (m.argument _) fun _ => m.bind (m.argument _) fun _ => m.typeSigsOf c h.2

theorem callSigOfCode {code : UInt8} {as : List SigTree} (h : ∀ a ∈ as, TreeMakes R c a) :
    Makes R (Writing.callSigOf c (.callSig code as)) := by
  rw [Writing.callSigOf_eq]
  split
  · exact m.refuse _
  · exact m.refuse _
  · rw [List.forall_mem_cons] at h
    refine m.bind (m.argument _) fun n => ?_
    split
    · exact m.refuse _
    · next hf =>
      have hf := Writing.mask_of_flagsOf hf
      split
      · next hk =>
        split
        · exact m.methodSigOf c hk hf h.2
        · split
          · exact m.refuse _
          · simp only [List.forall_mem_cons] at h
            exact m.bind (m.argument _) fun _ => m.methodSigOf c hk hf h.2.2
      · refine ite (m.refuse _) ?_
        split
        · simp only [List.forall_mem_cons] at h
          exact m.bind h.2.1.type fun _ => m.pure _
        · exact m.refuse _
        · exact m.bind (m.countedTypesOf c h.2) fun _ => m.pure _
        · exact m.bind (m.countedTypesOf c h.2) fun _ => m.pure _

theorem tree (t : SigTree) : TreeMakes R c t := by
  induction t using SigTree.induction with
  | h t ih =>
      constructor
      · unfold Writing.rowOfTree
        split
        · exact m.typeOfToken c _
        · exact m.bind (m.typeSigOfCode c ih) fun _ => making fun _ w => m.rows (.addRow w.store _)
        · exact m.refuse _
      · unfold Writing.typeSigOf
        split
        · exact m.typeSigOfCode c ih
        · exact m.refuse _
      · cases t with
        | callSig => exact m.callSigOfCode c ih
        | _ => exact m.refuse _

theorem rowOfTree (t : SigTree) : Makes R (Writing.rowOfTree c t) := (m.tree c t).row

theorem callSigOf (t : SigTree) : Makes R (Writing.callSigOf c t) := (m.tree c t).call

/-! ### Fields and methods -/

/-- A field is found or made, where one may be made. -/
theorem resolveField (h : ∀ (w : WriteState) t d, R w (w.inStore (w.store.createField t d).2))
    (id : MemberIdentity) : Makes R (Writing.resolveField c id) := by
  rw [Writing.resolveField_eq]
  refine m.bind (m.rowOfTree c _) fun parent => m.bind (m.callSigOf c _) fun sig =>
    m.guard (m.bind (m.askable _) fun _ => ?_)
  split
  · refine m.bind m.store fun s => ?_
    split
    · exact m.pure _
    · exact m.bind (making fun _ w => h w _ _) fun _ => m.pure _
  · exact making fun i w => m.rows (.addRowTo w.store i (.memberRef · id.name sig parent) fun _ => rfl)

/-- The same of a method. -/
theorem resolveMethod (h : ∀ (w : WriteState) t d, R w (w.inStore (w.store.createMethod t d).2))
    (id : MemberIdentity) : Makes R (Writing.resolveMethod c id) := by
  rw [Writing.resolveMethod_eq]
  refine m.bind (m.rowOfTree c _) fun parent => m.bind (m.callSigOf c _) fun sig =>
    m.guard (m.bind (m.askable _) fun _ => ?_)
  split
  · refine m.bind m.store fun s => ?_
    split
    · exact m.pure _
    · exact m.bind (making fun _ w => h w _ _) fun _ => m.pure _
  · exact making fun i w => m.rows (.addRowTo w.store i (.memberRef · id.name sig parent) fun _ => rfl)

end Typing

namespace Making

open Locating

variable (m : Making R) (c : Catalog)

include m

theorem fieldRow (id : MemberIdentity) : Makes R (Writing.fieldRow c id) := by
  refine m.bind m.writer fun v => ?_
  split
  · exact m.pure _
  · exact m.bind (m.resolveField c m.addField id) fun r => m.bind (modifyWriter fun w => m.noteField w _ _) fun _ => m.pure r

theorem methodRow (id : MemberIdentity) : Makes R (Writing.methodRow c id) := by
  refine m.bind m.writer fun v => ?_
  split
  · exact m.pure _
  · exact m.bind (m.resolveMethod c m.addMethod id) fun r => m.bind (modifyWriter fun w => m.noteMethod w _ _) fun _ => m.pure r

theorem fieldOfToken (t : Token) : Makes R (Writing.fieldOfToken c t) :=
  m.bind (m.lookUp _ t) fun _ => m.fieldRow c _

theorem methodOfToken (t : Token) : Makes R (Writing.methodOfToken c t) :=
  m.bind (m.lookUp _ t) fun _ => m.methodRow c _

theorem definitionOfToken (t : Token) : Makes R (Writing.definitionOfToken c t) := by
  refine m.bind (m.methodOfToken c t) fun r => m.bind (m.askable _) fun _ => ?_
  split
  · exact m.pure _
  · exact m.refuse _

/-! ### Parts of definitions -/

theorem customAttributes (as : Option (List CustomAttribute)) :
    Makes R (Writing.customAttributes c as) :=
  m.mapM (fun _ => m.bind (m.methodOfToken c _) fun _ => m.pure _) _

theorem rowsOfTrees (ts : Option (List SigTree)) : Makes R (Writing.rowsOfTrees c ts) :=
  m.mapM (fun _ => m.rowOfTree c _) _

theorem genericParams (ps : Option (List GenericParameter)) :
    Makes R (Writing.genericParams c ps) :=
  m.mapM (fun _ => m.bind (m.rowsOfTrees c _) fun _ => m.pure _) _

theorem param (p : Parameter) : Makes R (Writing.param c p) :=
  m.bind (m.customAttributes c _) fun _ => m.pure _

theorem accessor (t : Option Token) : Makes R (Writing.accessor c t) := by
  cases t with
  | none => exact m.pure _
  | some t => exact m.bind (m.definitionOfToken c t) fun _ => m.pure _

theorem property (p : Property) : Makes R (Writing.property c p) := by
  rw [Writing.property_eq]
  exact m.bind (m.callSigOf c _) fun _ => m.guard (m.bind (m.accessor c _) fun _ =>
    m.bind (m.accessor c _) fun _ => m.bind (m.customAttributes c _) fun _ => m.pure _)

theorem event (e : Event) : Makes R (Writing.event c e) :=
  m.bind (m.rowOfTree c _) fun _ => m.bind (m.accessor c _) fun _ => m.bind (m.accessor c _) fun _ =>
    m.bind (m.accessor c _) fun _ => m.bind (m.customAttributes c _) fun _ => m.pure _

theorem implMap (i : ImplMap) : Makes R (do
    return (⟨← Writing.moduleRow i.module, i.name, Writing.low16 i.attributes⟩ : Live.ImplMap)) :=
  m.bind (m.moduleRow _) fun _ => m.pure _

/-! ### Method bodies -/

theorem target (size : Nat) (n : Int32) : Makes R (Writing.target size n) :=
  ite (m.pure _) (m.refuse _)

theorem boundary (size : Nat) (n : Int32) : Makes R (Writing.boundary size n) :=
  ite (m.pure _) (m.target size n)

theorem variableOperand (count : Nat) (op : OpCode) (n : Int32) :
    Makes R (Writing.variableOperand count op n) :=
  ite (m.refuse _) (ite (m.pure _) (ite (m.pure _) (m.refuse _)))

theorem tokenOperand (t : SigTree) : Makes R (Writing.tokenOperand c t) := by
  rw [Writing.tokenOperand_eq]
  split
  · exact m.bind (m.callSigOf c _) fun _ => ite (m.pure _) (m.refuse _)
  · exact m.bind (m.rowOfTree c _) fun _ => m.pure _
  · exact m.bind (m.fieldOfToken c _) fun _ => m.pure _
  · exact m.refuse _
  · exact m.bind (m.methodOfToken c _) fun _ => m.pure _
  · exact m.bind (m.methodOfToken c _) fun _ => m.bind (m.callSigOf c _) fun _ =>
      ite (m.bind (making fun _ w => m.rows (.addRow w.store _)) fun _ => m.pure _) (m.refuse _)
  · exact m.refuse _
  · exact m.refuse _

theorem operand (size count : Nat) (op : OpCode) (o : Option Operand) :
    Makes R (Writing.operand c size count op o) := by
  unfold Writing.operand
  cases op.operandType <;> rcases o with _ | o <;> try cases o
  all_goals first
    | exact m.pure _
    | exact m.refuse _
    | exact m.tokenOperand c _
    | exact m.variableOperand _ _ _
    | exact m.bind (m.target _ _) fun _ => m.pure _
    | exact m.bind (m.mapM (fun _ => m.target _ _) _) fun _ => m.pure _

theorem opCode (i : Instruction) : Makes R (Writing.opCode i) := by
  rw [Writing.opCode_eq]
  split
  · exact m.pure _
  · exact m.refuse _

theorem handler (size : Nat) (h : ExceptionHandler) : Makes R (Writing.handler c size h) := by
  refine m.bind (m.target _ _) fun _ => m.bind (m.boundary _ _) fun _ => m.bind (m.boundary _ _)
    fun _ => m.bind (m.target _ _) fun _ => m.bind (m.boundary _ _) fun _ =>
      m.bind (ite (m.pure _) (m.refuse _)) fun _ => ?_
  cases h.catchType with
  | none => exact m.pure _
  | some t => exact m.bind (m.rowOfTree c t) fun _ => m.pure _

theorem body (b : MethodBody) : Makes R (Writing.body c b) := by
  unfold Writing.body
  exact m.guard (m.bind (m.typeSigsOf c fun t _ => m.tree c t) fun _ =>
    m.bind (m.mapM m.opCode _) fun _ =>
      m.bind (m.mapM (fun _ => m.bind (m.operand c _ _ _ _) fun _ => m.pure _) _) fun _ =>
        m.bind (m.mapM (m.handler c _) _) fun _ => m.pure _)

/-! ### Definitions -/

theorem defineType {t : TypeId} (h : ∀ (w : WriteState) f, WriteState.KeepsMembers f →
    R w (w.inStore (w.store.modifyType t f))) (d : TypeData) : Makes R (Writing.defineType c t d) := by
  have rest : Makes R (do
      let interfaces ← Writing.rowsOfTrees c d.interfaces
      let genericParams ← Writing.genericParams c d.genericParameters
      let customAttributes ← Writing.customAttributes c d.customAttributes
      let layout := d.layout.map fun l =>
        (⟨Writing.low16 l.packingSize, l.classSize.toUInt32⟩ : Live.ClassLayout)
      Writing.modifyStore (·.modifyType t fun l =>
        { l with interfaces, genericParams, customAttributes, layout })) :=
    m.bind (m.rowsOfTrees c _) fun _ => m.bind (m.genericParams c _) fun _ =>
      m.bind (m.customAttributes c _) fun _ => modifyStore fun w =>
        h w _ ⟨fun _ => rfl, fun _ => rfl, fun _ => rfl, fun _ => rfl⟩
  refine m.bind (modifyStore fun w => h w _ ⟨fun _ => rfl, fun _ => rfl, fun _ => rfl, fun _ => rfl⟩)
    fun _ => ?_
  cases d.baseType with
  | none => exact rest
  | some tree =>
      exact m.bind (m.rowOfTree c tree) fun _ => m.bind (modifyStore fun w =>
        h w _ ⟨fun _ => rfl, fun _ => rfl, fun _ => rfl, fun _ => rfl⟩) fun _ => rest

/-! ### Members of types -/

theorem nestedIn (s : Store) (t : TypeId) (r : Row) : Makes R (Writing.nestedIn s t r) := by
  refine m.bind (m.askable _) fun _ => ?_
  split
  · exact ite (m.pure _) (m.refuse _)
  · exact m.refuse _

theorem fieldIn (s : Store) (t : TypeId) (r : Row) : Makes R (Writing.fieldIn s t r) := by
  refine m.bind (m.askable _) fun _ => ?_
  split
  · exact ite (m.pure _) (m.refuse _)
  · exact m.refuse _

theorem methodIn (s : Store) (t : TypeId) (r : Row) : Makes R (Writing.methodIn s t r) := by
  refine m.bind (m.askable _) fun _ => ?_
  split
  · exact ite (m.pure _) (m.refuse _)
  · exact m.refuse _

theorem forPresent {list : Option (List α)} {f : List α → Writing Unit} (hf : ∀ as, Makes R (f as)) :
    Makes R (Writing.forPresent list f) := by
  cases list with
  | none => exact m.pure ()
  | some as => exact hf as

/-- The fields of a type are put in order when they have been written. -/
theorem orderFields {t : TypeId} (h : ∀ (w : WriteState) fs, R w (w.inStore (w.store.modifyType t
    fun l => { l with fields := Writing.reordered fs l.fields })))
    (hf : ∀ ts, Makes R (Writing.fields c ts .definition)) (list : Option (List Token)) :
    Makes R (Writing.forPresent list fun ts => do
      let rows ← Writing.fields c ts .definition
      let fs ← rows.mapM (Writing.fieldIn (← Writing.store) t)
      Writing.modifyStore (·.modifyType t fun l =>
        { l with fields := Writing.reordered fs l.fields })) :=
  m.forPresent fun ts => m.bind (hf ts) fun rows => m.bind m.store fun s =>
    m.bind (m.mapM (m.fieldIn s t) rows) fun fs => modifyStore fun w => h w fs

/-- The methods of a type are put in order when they have been written. -/
theorem orderMethods {t : TypeId} (h : ∀ (w : WriteState) ms, R w (w.inStore (w.store.modifyType t
    fun l => { l with methods := Writing.reordered ms l.methods })))
    (hm : ∀ ts, Makes R (Writing.methods c ts .definition)) (list : Option (List Token)) :
    Makes R (Writing.forPresent list fun ts => do
      let rows ← Writing.methods c ts .definition
      let ms ← rows.mapM (Writing.methodIn (← Writing.store) t)
      Writing.modifyStore (·.modifyType t fun l =>
        { l with methods := Writing.reordered ms l.methods })) :=
  m.forPresent fun ts => m.bind (hm ts) fun rows => m.bind m.store fun s =>
    m.bind (m.mapM (m.methodIn s t) rows) fun ms => modifyStore fun w => h w ms

/-- The members of a type are put in place, where they are written within the relation. -/
theorem defineMembers {t : TypeId} (h : ∀ (w : WriteState) f,
    (∀ d : TypeDef, (f d).head = d.head) → R w (w.inStore (w.store.modifyType t f)))
    (hf : ∀ ts, Makes R (Writing.fields c ts .definition))
    (hm : ∀ ts, Makes R (Writing.methods c ts .definition)) (d : TypeData) :
    Makes R (Writing.defineMembers c t d) := by
  refine m.bind (m.orderFields c (fun w fs => h w _ fun _ => rfl) hf _) fun _ =>
    m.bind (m.orderMethods c (fun w ms => h w _ fun _ => rfl) hm _) fun _ =>
      m.bind (m.forPresent fun ps => ?_) fun _ => m.forPresent fun es => ?_
  · exact m.bind (m.mapM (m.property c) ps) fun _ => modifyStore fun w => h w _ fun _ => rfl
  · exact m.bind (m.mapM (m.event c) es) fun _ => modifyStore fun w => h w _ fun _ => rfl

end Making

/-- Relations that hold between a state and what comes of changing what fields and methods say, too. -/
structure Changing (R : WriteState → WriteState → Prop) : Prop extends Making R where
  changeField : ∀ (w : WriteState) i f, R w (w.inStore (w.store.modifyField i f))
  changeMethod : ∀ (w : WriteState) i f, R w (w.inStore (w.store.modifyMethod i f))

namespace Changing

open Locating

variable (m : Changing R) (c : Catalog)

include m

theorem defineField (i : FieldId) (d : FieldData) : Makes R (Writing.defineField c i d) :=
  m.bind (m.customAttributes c _) fun _ => modifyStore fun w => m.changeField w i _

theorem defineMethod (i : MethodId) (d : MethodData) : Makes R (Writing.defineMethod c i d) := by
  have rest : Makes R (do
      let overrides ← (d.overrides.getD []).mapM (Writing.methodOfToken c)
      Writing.modifyStore (·.modifyMethod i fun l => { l with overrides })
      let genericParams ← Writing.genericParams c d.genericParameters
      let customAttributes ← Writing.customAttributes c d.customAttributes
      let implMap ← d.implMap.mapM fun i => do
        return (⟨← Writing.moduleRow i.module, i.name, Writing.low16 i.attributes⟩ : Live.ImplMap)
      Writing.modifyStore (·.modifyMethod i fun l =>
        { l with genericParams, customAttributes, implMap })) :=
    m.bind (m.mapM (m.methodOfToken c) _) fun _ => m.bind (modifyStore fun w => m.changeMethod w i _)
      fun _ => m.bind (m.genericParams c _) fun _ => m.bind (m.customAttributes c _) fun _ =>
        m.bind (m.optional m.implMap _) fun _ => modifyStore fun w => m.changeMethod w i _
  refine m.bind (modifyStore fun w => m.changeMethod w i _) fun _ => m.bind (m.mapM (m.param c) _)
    fun _ => m.bind (modifyStore fun w => m.changeMethod w i _) fun _ => ?_
  cases d.body with
  | none => exact rest
  | some b =>
      exact m.bind (m.body c b) fun _ => m.bind (modifyStore fun w => m.changeMethod w i _) fun _ =>
        rest

end Changing

/-- Relations that hold of remembering how far an entity has been written, too. -/
structure Defining (R : WriteState → WriteState → Prop) : Prop extends Changing R where
  raiseType : ∀ (w : WriteState) id level,
    R w { w with writer := { w.writer with types := w.writer.types.atLevel id level } }
  raiseField : ∀ (w : WriteState) id level,
    R w { w with writer := { w.writer with fields := w.writer.fields.atLevel id level } }
  raiseMethod : ∀ (w : WriteState) id level,
    R w { w with writer := { w.writer with methods := w.writer.methods.atLevel id level } }

namespace Defining

open Locating

variable (m : Defining R) (c : Catalog)

include m

theorem field (e : FieldEntity) (level : Level) : Makes R (Writing.field c e level) := by
  rw [Writing.field_eq]
  refine m.bind (m.checkLevel _ _) fun _ => m.bind (m.fieldRow c _) fun row => m.bind m.writer
    fun v => ite (m.pure row) ?_
  split
  · refine m.bind (m.askable _) fun _ => ?_
    split
    · exact m.bind (m.defineField c _ _) fun _ => m.bind (fun w => m.raiseField w _ _) fun _ => m.pure _
    · exact m.bind m.store fun _ => m.bind m.writer fun _ => m.refuse _
  · exact m.refuse _

theorem method (e : MethodEntity) (level : Level) : Makes R (Writing.method c e level) := by
  rw [Writing.method_eq]
  refine m.bind (m.checkLevel _ _) fun _ => m.bind (m.methodRow c _) fun row => m.bind m.writer
    fun v => ite (m.pure row) ?_
  split
  · refine m.bind (m.askable _) fun _ => ?_
    split
    · exact m.bind (m.defineMethod c _ _) fun _ => m.bind (fun w => m.raiseMethod w _ _) fun _ => m.pure _
    · exact m.bind m.store fun _ => m.bind m.writer fun _ => m.refuse _
  · exact m.refuse _

theorem fields (ts : List Token) (level : Level) : Makes R (Writing.fields c ts level) :=
  m.mapM (fun t => m.bind (m.lookUp _ t) fun _ => m.field c _ _) ts

theorem methods (ts : List Token) (level : Level) : Makes R (Writing.methods c ts level) :=
  m.mapM (fun t => m.bind (m.lookUp _ t) fun _ => m.method c _ _) ts

/-- The members of a type are put in place, where it may be changed in all but what its identity is made of. -/
theorem defineMembers {t : TypeId} (h : ∀ (w : WriteState) f,
    (∀ d : TypeDef, (f d).head = d.head) → R w (w.inStore (w.store.modifyType t f)))
    (d : TypeData) : Makes R (Writing.defineMembers c t d) :=
  m.toMaking.defineMembers c h (m.fields c · _) (m.methods c · _) d

end Defining

/-- Relations that hold of changing what types say, too, but for what their identities are made of. -/
structure Shaping (R : WriteState → WriteState → Prop) : Prop extends Defining R where
  changeType : ∀ (w : WriteState) t f, (∀ d : TypeDef, (f d).head = d.head) →
    R w (w.inStore (w.store.modifyType t f))

namespace Shaping

open Locating

variable (m : Shaping R) (c : Catalog)

include m

/-- A type is given its children, those nested in it being written by `nested`. -/
theorem children {t : TypeId} {id : TypeIdentity} {d : TypeData} {level : Level}
    {nested : TypeEntity → Writing Row} (h : ∀ e, Makes R (nested e)) : Makes R (do
      if level = .withChildren then
        Writing.forPresent d.nestedTypes fun ts => do
          let rows ← ts.mapM fun n => do nested (← Writing.lookUp c.types n)
          let ns ← rows.mapM (Writing.nestedIn (← Writing.store) t)
          Writing.modifyStore (·.modifyType t fun l =>
            { l with nestedTypes := Writing.reordered ns l.nestedTypes })
        Writing.defineMembers c t d
        Writing.modifyWriter fun w => { w with types := w.types.atLevel id .withChildren }
      return Row.typeDef t) := by
  refine ite ?_ (m.pure _)
  refine m.bind (m.forPresent fun ts => ?_) fun _ => m.bind (m.defineMembers c
    (fun w f hf => m.changeType w t f hf) d) fun _ => m.bind (fun w => m.raiseType w _ _) fun _ => m.pure _
  exact m.bind (m.mapM (fun n => m.bind (m.lookUp _ n) h) ts) fun _ => m.bind m.store fun s =>
    m.bind (m.mapM (m.nestedIn s t) _) fun _ => modifyStore fun w => m.changeType w t _ fun _ => rfl

theorem typeWithin (depth : Nat) (e : TypeEntity) (level : Level) :
    Makes R (Writing.typeWithin c depth e level) := by
  induction depth generalizing e with
  | zero => exact fun w => m.refl w
  | succ depth ih =>
      rw [Writing.typeWithin_eq]
      refine m.bind (m.checkLevel _ _) fun _ => m.bind (m.typeRow _) fun row => m.bind m.writer
        fun v => ite (m.pure row) ?_
      have children : ∀ {t d}, Makes R _ := fun {t d} =>
        @children R m c t e.identity d level _ (ih ·)
      split
      · refine m.bind (m.askable _) fun _ => ?_
        split
        · exact ite (m.bind (m.defineType c (fun w f hf => m.changeType w _ f hf.head) _) fun _ =>
            m.bind (fun w => m.raiseType w _ _) fun _ => children) children
        · exact m.bind m.store fun _ => m.bind m.writer fun _ => m.refuse _
      · exact m.refuse _

/-- Whatever is asked for, nothing is done but such steps. -/
theorem serve (q : Writer.Request) : Makes R (Writer.serve c q) := by
  cases q with
  | type e level => exact m.bind (m.typeWithin c _ e level) fun _ => m.pure _
  | field e level => exact m.bind (m.field c e level) fun _ => m.pure _
  | method e level => exact m.bind (m.method c e level) fun _ => m.pure _
  | types ts level =>
      exact m.mapM (fun t => m.bind (m.lookUp _ t) fun _ => m.typeWithin c _ _ level) ts
  | fields ts level => exact m.fields c ts level
  | methods ts level => exact m.methods c ts level

end Shaping

end CilCatalog
