import CilCatalog.Proofs.Writing.References

/-!
# Definitions are written in acts

One lemma for each function that writes a definition or a part of one, up to those that a writer is asked for.
-/

namespace CilCatalog

open Live
open WriteState (Ready)

namespace Runs

variable {w w' : WriteState} (c : Catalog)

/-! ### Parts of definitions -/

theorem customAttributes (as : Option (List CustomAttribute)) :
    Runs Ready w (Writing.customAttributes c as) fun _ _ => True :=
  each fun _ _ _ => (methodOfToken c _).bind fun _ _ => pure trivial

theorem rowsOfTrees (ts : Option (List SigTree)) :
    Runs Ready w (Writing.rowsOfTrees c ts) fun _ _ => True :=
  each fun _ _ _ => (rowOfTree c _).imp fun _ => trivial

theorem genericParams (ps : Option (List GenericParameter)) :
    Runs Ready w (Writing.genericParams c ps) fun _ _ => True :=
  each fun _ _ _ => (rowsOfTrees c _).bind fun _ _ => pure trivial

theorem param (p : Parameter) : Runs Ready w (Writing.param c p) fun _ _ => True :=
  (customAttributes c _).bind fun _ _ => pure trivial

theorem accessor (t : Option Token) : Runs Ready w (Writing.accessor c t) fun _ _ => True := by
  cases t with
  | none => exact pure trivial
  | some t => exact (definitionOfToken c t).bind fun _ _ => pure trivial

theorem property (p : Property) : Runs Ready w (Writing.property c p) fun _ _ => True := by
  rw [Writing.property_eq]
  exact (callSigOf c _).bind fun _ _ => guard fun _ => (accessor c _).bind fun _ _ =>
    (accessor c _).bind fun _ _ => (customAttributes c _).bind fun _ _ => pure trivial

theorem event (e : Event) : Runs Ready w (Writing.event c e) fun _ _ => True :=
  (rowOfTree c _).bind fun _ _ => (accessor c _).bind fun _ _ => (accessor c _).bind fun _ _ =>
    (accessor c _).bind fun _ _ => (customAttributes c _).bind fun _ _ => pure trivial

/-! ### Method bodies -/

theorem target (size : Nat) (n : Int32) : Runs Ready w (Writing.target size n) fun _ _ => True :=
  ite (fun _ => pure trivial) fun _ => refuse

theorem boundary (size : Nat) (n : Int32) : Runs Ready w (Writing.boundary size n) fun _ _ => True :=
  ite (fun _ => pure trivial) fun _ => target size n

theorem variableOperand (count : Nat) (op : OpCode) (n : Int32) :
    Runs Ready w (Writing.variableOperand count op n) fun _ _ => True :=
  ite (fun _ => refuse) fun _ => ite (fun _ => pure trivial) fun _ =>
    ite (fun _ => pure trivial) fun _ => refuse

theorem handlerType (n : Int32) : Runs Ready w (Writing.handlerType n) fun _ _ => True :=
  ite (fun _ => pure trivial) fun _ => refuse

theorem tokenOperand (t : SigTree) : Runs Ready w (Writing.tokenOperand c t) fun _ _ => True := by
  rw [Writing.tokenOperand_eq]
  split
  · exact (callSigOf c _).bind fun _ _ => ite (fun _ => pure trivial) fun _ => refuse
  · exact (rowOfTree c _).bind fun _ _ => pure trivial
  · exact (fieldOfToken c _).bind fun _ _ => pure trivial
  · exact refuse
  · exact (methodOfToken c _).bind fun _ _ => pure trivial
  · exact (methodOfToken c _).bind fun _ hm => (callSigOf c _).bind fun hl _ =>
      ite (fun _ => (making (.methodSpec _ (hl.remembersMethod hm.remembersMethod)) fun _ => trivial).bind
        (P := fun _ _ => True) fun _ _ => pure trivial) fun _ => refuse
  · exact refuse
  · exact refuse

theorem operand (size count : Nat) (op : OpCode) (o : Option Operand) :
    Runs Ready w (Writing.operand c size count op o) fun _ _ => True := by
  unfold Writing.operand
  cases op.operandType <;> rcases o with _ | o <;> try cases o
  all_goals first
    | exact pure trivial
    | exact refuse
    | exact tokenOperand c _
    | exact variableOperand _ _ _
    | exact (target _ _).bind fun _ _ => pure trivial
    | exact (each fun _ _ _ => target _ _).bind fun _ _ => pure trivial

theorem opCode (i : Instruction) : Runs Ready w (Writing.opCode i) fun _ _ => True := by
  rw [Writing.opCode_eq]
  split
  · exact pure trivial
  · exact refuse

theorem handler (size : Nat) (h : ExceptionHandler) :
    Runs Ready w (Writing.handler c size h) fun _ _ => True := by
  refine (target _ _).bind fun _ _ => (boundary _ _).bind fun _ _ => (boundary _ _).bind fun _ _ =>
    (target _ _).bind fun _ _ => (boundary _ _).bind fun _ _ => (handlerType _).bind fun _ _ => ?_
  cases h.catchType with
  | none => exact pure trivial
  | some t => exact (rowOfTree c t).bind fun _ _ => pure trivial

theorem body (b : MethodBody) : Runs Ready w (Writing.body c b) fun _ _ => True := by
  unfold Writing.body
  exact guard fun _ => (typeSigsOf c (fun t _ => treeRuns c w t) (.refl w)).bind fun _ _ =>
    (each fun _ _ _ => opCode _).bind fun _ _ =>
      (each fun _ _ _ => (operand c _ _ _ _).bind fun _ _ => pure trivial).bind fun _ _ =>
        (each fun _ _ _ => handler c _ _).bind fun _ _ => pure trivial

/-! ### Definition data -/

theorem changeType {t : TypeId} {f : TypeDef → TypeDef} (ht : w.RemembersType (.typeDef t))
    (hf : WriteState.KeepsMembers f) :
    Runs Ready w (Writing.modifyStore (·.modifyType t f)) fun _ _ => True :=
  (modifyStore (.defineType ht hf)).imp fun _ => trivial

theorem changeField {i : FieldId} {f : FieldDef → FieldDef} (hi : w.RemembersField (.fieldDef i))
    (hf : ∀ d, (f d).head = d.head) :
    Runs Ready w (Writing.modifyStore (·.modifyField i f)) fun _ _ => True :=
  (modifyStore (.defineField hi hf)).imp fun _ => trivial

theorem changeMethod {i : MethodId} {f : MethodDef → MethodDef}
    (hi : w.RemembersMethod (.methodDef i)) (hf : ∀ d, (f d).head = d.head) :
    Runs Ready w (Writing.modifyStore (·.modifyMethod i f)) fun _ _ => True :=
  (modifyStore (.defineMethod hi hf)).imp fun _ => trivial

theorem defineType {t : TypeId} (d : TypeData) (ht : w.RemembersType (.typeDef t)) :
    Runs Ready w (Writing.defineType c t d) fun _ _ => True := by
  have rest : ∀ {w : WriteState}, w.RemembersType (.typeDef t) → Runs Ready w (do
      let interfaces ← Writing.rowsOfTrees c d.interfaces
      let genericParams ← Writing.genericParams c d.genericParameters
      let customAttributes ← Writing.customAttributes c d.customAttributes
      let layout := d.layout.map fun l =>
        (⟨Writing.low16 l.packingSize, l.classSize.toUInt32⟩ : Live.ClassLayout)
      Writing.modifyStore (·.modifyType t fun l =>
        { l with interfaces, genericParams, customAttributes, layout })) fun _ _ => True :=
    fun ht => (rowsOfTrees c _).bind fun h₁ _ => (genericParams c _).bind fun h₂ _ =>
      (customAttributes c _).bind fun h₃ _ =>
        changeType (((h₁.trans h₂).trans h₃).remembersType ht)
          ⟨fun _ => rfl, fun _ => rfl, fun _ => rfl, fun _ => rfl⟩
  refine bind (changeType ht ⟨fun _ => rfl, fun _ => rfl, fun _ => rfl, fun _ => rfl⟩)
    fun hl _ => ?_
  replace ht := hl.remembersType ht
  cases d.baseType with
  | none => exact rest ht
  | some tree =>
      exact (rowOfTree c tree).bind fun hl _ => bind (changeType (hl.remembersType ht)
        ⟨fun _ => rfl, fun _ => rfl, fun _ => rfl, fun _ => rfl⟩) fun hl' _ =>
          rest ((hl.trans hl').remembersType ht)

theorem defineField {f : FieldId} (d : FieldData) (hf : w.RemembersField (.fieldDef f)) :
    Runs Ready w (Writing.defineField c f d) fun _ _ => True :=
  (customAttributes c _).bind fun hl _ => changeField (hl.remembersField hf) fun _ => rfl

theorem defineMethod {f : MethodId} (d : MethodData) (hf : w.RemembersMethod (.methodDef f)) :
    Runs Ready w (Writing.defineMethod c f d) fun _ _ => True := by
  have rest : ∀ {w : WriteState}, w.RemembersMethod (.methodDef f) → Runs Ready w (do
      let overrides ← (d.overrides.getD []).mapM (Writing.methodOfToken c)
      Writing.modifyStore (·.modifyMethod f fun l => { l with overrides })
      let genericParams ← Writing.genericParams c d.genericParameters
      let customAttributes ← Writing.customAttributes c d.customAttributes
      let implMap ← d.implMap.mapM fun i => do
        return (⟨← Writing.moduleRow i.module, i.name, Writing.low16 i.attributes⟩ : Live.ImplMap)
      Writing.modifyStore (·.modifyMethod f fun l =>
        { l with genericParams, customAttributes, implMap })) fun _ _ => True :=
    fun hf => (each fun _ _ _ => (methodOfToken c _).imp fun _ => trivial).bind fun h₁ _ =>
      bind (changeMethod (h₁.remembersMethod hf) fun _ => rfl) fun h₂ _ =>
        (genericParams c _).bind fun h₃ _ => (customAttributes c _).bind fun h₄ _ =>
          (eachOf fun _ => moduleRow.bind fun _ _ => pure trivial).bind fun h₅ _ =>
            changeMethod (((((h₁.trans h₂).trans h₃).trans h₄).trans h₅).remembersMethod hf)
              fun _ => rfl
  refine bind (changeMethod hf fun _ => rfl) fun h₁ _ => (each fun _ _ _ => param c _).bind
    fun h₂ _ => bind (changeMethod ((h₁.trans h₂).remembersMethod hf) fun _ => rfl) fun h₃ _ => ?_
  replace hf := ((h₁.trans h₂).trans h₃).remembersMethod hf
  cases d.body with
  | none => exact rest hf
  | some b =>
      exact (body c b).bind fun hl _ =>
        bind (changeMethod (hl.remembersMethod hf) fun _ => rfl) fun hl' _ =>
          rest ((hl.trans hl').remembersMethod hf)

/-! ### Fields and methods -/

/-- A field has the row that is remembered of it. -/
theorem field {e : FieldEntity} {level : Level} :
    Runs Ready w (Writing.field c e level) fun w' r => w'.writer.fields.row? e.identity = some r := by
  rw [Writing.field_eq]
  refine bind_checkLevel ((fieldRow c).bind fun {row w} _ hrow => bind_writer ?_)
  have hr : w.RemembersField row := Memory.mem_of_row? hrow
  refine ite (fun _ => pure hrow) fun _ => ?_
  split
  · refine bind_askable fun _ => ?_
    split
    · next f _ =>
        refine (defineField c _ hr).bind fun hl _ => (modifyWriter (.raiseField _ _)).bind
          fun hl' _ => pure ((hl.trans hl').field_row hrow)
    · exact bind_store (bind_writer refuse)
  · exact refuse

theorem method {e : MethodEntity} {level : Level} :
    Runs Ready w (Writing.method c e level) fun w' r => w'.writer.methods.row? e.identity = some r := by
  rw [Writing.method_eq]
  refine bind_checkLevel ((methodRow c).bind fun {row w} _ hrow => bind_writer ?_)
  have hr : w.RemembersMethod row := Memory.mem_of_row? hrow
  refine ite (fun _ => pure hrow) fun _ => ?_
  split
  · refine bind_askable fun _ => ?_
    split
    · next f _ =>
        refine (defineMethod c _ hr).bind fun hl _ => (modifyWriter (.raiseMethod _ _)).bind
          fun hl' _ => pure ((hl.trans hl').method_row hrow)
    · exact bind_store (bind_writer refuse)
  · exact refuse

theorem fields {ts : List Token} {level : Level} :
    Runs Ready w (Writing.fields c ts level) fun w' rs => ∀ r ∈ rs, w'.RemembersField r :=
  mapM (fun _ _ _ => bind_lookUp fun _ => (field c).imp Memory.mem_of_row?) fun h hl =>
    hl.remembersField h

theorem methods {ts : List Token} {level : Level} :
    Runs Ready w (Writing.methods c ts level) fun w' rs => ∀ r ∈ rs, w'.RemembersMethod r :=
  mapM (fun _ _ _ => bind_lookUp fun _ => (method c).imp Memory.mem_of_row?) fun h hl =>
    hl.remembersMethod h

/-! ### Types -/

theorem nestedIn {outer : TypeId} {r : Row} (hr : w.RemembersType r) :
    Runs Ready w (Writing.nestedIn w.store outer r) fun w' t =>
      w' = w ∧ w.RemembersType (.typeDef t) ∧ (w.store.typeDef t).declaring = some outer := by
  refine bind_askable fun _ => ?_
  split
  · exact ite (fun h => pure ⟨rfl, hr, h⟩) fun _ => refuse
  · exact refuse

theorem fieldIn {t : TypeId} {r : Row} (hr : w.RemembersField r) :
    Runs Ready w (Writing.fieldIn w.store t r) fun w' f =>
      w' = w ∧ w.RemembersField (.fieldDef f) ∧ (w.store.fieldDef f).declaring = some t := by
  refine bind_askable fun _ => ?_
  split
  · exact ite (fun h => pure ⟨rfl, hr, h⟩) fun _ => refuse
  · exact refuse

theorem methodIn {t : TypeId} {r : Row} (hr : w.RemembersMethod r) :
    Runs Ready w (Writing.methodIn w.store t r) fun w' f =>
      w' = w ∧ w.RemembersMethod (.methodDef f) ∧ (w.store.methodDef f).declaring = some t := by
  refine bind_askable fun _ => ?_
  split
  · exact ite (fun h => pure ⟨rfl, hr, h⟩) fun _ => refuse
  · exact refuse

theorem forPresent {α : Type} {list : Option (List α)} {f : List α → Writing Unit}
    (hf : ∀ as, Runs Ready w (f as) fun _ _ => True) :
    Runs Ready w (Writing.forPresent list f) fun _ _ => True := by
  unfold Writing.forPresent
  split
  · exact pure trivial
  · exact hf _

theorem defineMembers {t : TypeId} (d : TypeData) (ht : w.RemembersType (.typeDef t)) :
    Runs Ready w (Writing.defineMembers c t d) fun _ _ => True := by
  refine (forPresent fun ts => ?_).bind fun h₁ _ => (forPresent fun ts => ?_).bind fun h₂ _ =>
    (forPresent fun ps => ?_).bind fun h₃ _ => forPresent fun es => ?_
  · refine (fields c).bind fun hl hr => bind_store ?_
    refine (mapM_still fun r h => fieldIn (hr r h)).bind ?_
    rintro fs _ - ⟨rfl, hfs⟩
    exact (modifyStore (.orderFields (hl.remembersType ht) hfs)).imp fun _ => trivial
  · refine (methods c).bind fun hl hr => bind_store ?_
    refine (mapM_still fun r h => methodIn (hr r h)).bind ?_
    rintro fs _ - ⟨rfl, hfs⟩
    exact (modifyStore (.orderMethods ((h₁.trans hl).remembersType ht) hfs)).imp fun _ => trivial
  · exact (each fun _ _ _ => property c _).bind fun hl _ =>
      changeType (((h₁.trans h₂).trans hl).remembersType ht)
        ⟨fun _ => rfl, fun _ => rfl, fun _ => rfl, fun _ => rfl⟩
  · exact (each fun _ _ _ => event c _).bind fun hl _ =>
      changeType ((((h₁.trans h₂).trans h₃).trans hl).remembersType ht)
        ⟨fun _ => rfl, fun _ => rfl, fun _ => rfl, fun _ => rfl⟩

/-- The children of a type are put in place, those nested in it being written by `nested`. -/
theorem children {t : TypeId} {id : TypeIdentity} {d : TypeData} {level : Level}
    {nested : TypeEntity → Writing Row}
    (h : ∀ {w e}, Runs Ready w (nested e) fun w' r => w'.RemembersType r)
    (ht : w.RemembersType (.typeDef t)) :
    Runs Ready w (do
      if level = .withChildren then
        Writing.forPresent d.nestedTypes fun ts => do
          let rows ← ts.mapM fun n => do nested (← Writing.lookUp c.types n)
          let ns ← rows.mapM (Writing.nestedIn (← Writing.store) t)
          Writing.modifyStore (·.modifyType t fun l =>
            { l with nestedTypes := Writing.reordered ns l.nestedTypes })
        Writing.defineMembers c t d
        Writing.modifyWriter fun w => { w with types := w.types.atLevel id .withChildren }
      return .typeDef t) fun w' r => w'.RemembersType r := by
  refine ite (fun _ => ?_) fun _ => pure ht
  refine (forPresent fun ts => ?_).bind fun h₁ _ => (defineMembers c d (h₁.remembersType ht)).bind
    fun h₂ _ => (modifyWriter (.raiseType _ _)).bind fun h₃ _ =>
      pure (((h₁.trans h₂).trans h₃).remembersType ht)
  refine (mapM (fun _ _ _ => bind_lookUp fun _ => h) fun h hl => hl.remembersType h).bind
    fun hl hr => bind_store ?_
  refine (mapM_still fun r h => nestedIn (hr r h)).bind ?_
  rintro ns _ - ⟨rfl, hns⟩
  exact (modifyStore (.orderTypes (hl.remembersType ht) hns)).imp fun _ => trivial

theorem typeWithin {depth : Nat} {e : TypeEntity} {level : Level} :
    Runs Ready w (Writing.typeWithin c depth e level) fun w' r => w'.RemembersType r := by
  induction depth generalizing w e with
  | zero => exact throw
  | succ depth ih =>
      rw [Writing.typeWithin_eq]
      refine bind_checkLevel (typeRow.bind fun {row w} _ hrow => bind_writer ?_)
      have hr : w.RemembersType row := Memory.mem_of_row? hrow.1
      refine ite (fun _ => pure hr) fun _ => ?_
      split
      · refine bind_askable fun _ => ?_
        split
        · next t _ =>
            refine ite (fun _ => ?_) fun _ => children c ih hr
            exact (defineType c _ hr).bind fun h₁ _ => (modifyWriter (.raiseType _ _)).bind
              fun h₂ _ => children c ih ((h₁.trans h₂).remembersType hr)
        · exact bind_store (bind_writer refuse)
      · exact refuse

theorem type {e : TypeEntity} {level : Level} :
    Runs Ready w (Writing.type c e level) fun w' r => w'.RemembersType r := typeWithin c

theorem types {ts : List Token} {level : Level} :
    Runs Ready w (Writing.types c ts level) fun w' rs => ∀ r ∈ rs, w'.RemembersType r :=
  mapM (fun _ _ _ => bind_lookUp fun _ => type c) fun h hl => hl.remembersType h

end Runs

end CilCatalog
