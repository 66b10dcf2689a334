import CilCatalog.Proofs.Live.Nameable
import CilCatalog.Proofs.Writing.Contracts
import CilCatalog.Proofs.Writing.Memory

/-!
# What a writer does

A writer that asks nothing works in small acts: it makes a row or a definition that it has not found, changes a definition that it remembers, or remembers something.  `WriteState.Act` lists these acts with what the writer knows when it does them, and `WriteState.Leads` is any number of them.

* `WriteState.Leads.type_row`: the row that is remembered of a type never changes, and neither do those of fields and methods.
-/

namespace CilCatalog

open Live Writing

namespace WriteState

variable {w w' w'' : WriteState}

/-! ### What is known -/

/-- The writer's module. -/
def home (w : WriteState) : Live.Image := w.store.image w.writer.image

/-- The row of some assembly is remembered. -/
def RemembersAssembly (w : WriteState) (r : Row) : Prop := ∃ e ∈ w.writer.assemblies, e.2 = r

/-- The row is remembered of some type. -/
def RemembersType (w : WriteState) (r : Row) : Prop := ∃ e ∈ w.writer.types, e.2.row = r

def RemembersField (w : WriteState) (r : Row) : Prop := ∃ e ∈ w.writer.fields, e.2.row = r

def RemembersMethod (w : WriteState) (r : Row) : Prop := ∃ e ∈ w.writer.methods, e.2.row = r

/-- A row that type references can have as their scope. -/
inductive Scope (w : WriteState) : Row → Prop
  | assembly {r : Row} (h : w.RemembersAssembly r) : Scope w r
  | type {n : Nat} {ns name : Bytes} {scope : Row}
      (h : w.RemembersType (.typeRef n ns name scope)) : Scope w (.typeRef n ns name scope)

/-- A row that a type can be written to: a type of the module, a type nested in one that is remembered or just made for it, or a reference with a scope that is remembered. -/
inductive FindsType (w : WriteState) : Row → Prop
  | global : FindsType w (.typeDef (w.store.globalType w.writer.image))
  | top {t : TypeId} (ht : t ∈ w.home.types) : FindsType w (.typeDef t)
  | nested {o t : TypeId} (ho : w.RemembersType (.typeDef o))
      (ht : t ∈ (w.store.typeDef o).nestedTypes) : FindsType w (.typeDef t)
  | made {o t : TypeId} (ho : w.RemembersType (.typeDef o))
      (ht : w.store.Owns w.writer.image t) (hd : (w.store.typeDef t).declaring = some o) :
      FindsType w (.typeDef t)
  | referred {n : Nat} {ns name : Bytes} {scope scope' : Row} (hs : w.Scope scope)
      (hr : .typeRef n ns name scope' ∈ w.home.typeRefs) (h : scope'.same scope = true) :
      FindsType w (.typeRef n ns name scope')

/-- What a change of a type definition leaves alone. -/
structure KeepsMembers (f : TypeDef → TypeDef) : Prop where
  head : ∀ d, (f d).head = d.head
  nestedTypes : ∀ d, (f d).nestedTypes = d.nestedTypes
  fields : ∀ d, (f d).fields = d.fields
  methods : ∀ d, (f d).methods = d.methods

/-! ### Acts -/

/-- The state with another store. -/
def inStore (w : WriteState) (s : Store) : WriteState := { w with store := s }

/-- One act of a writer. -/
inductive Act (w : WriteState) : WriteState → Prop
  | assemblyRef (name : Bytes) (new : ∀ r ∈ w.home.assemblyRefs, isAssembly name r = false) :
      Act w (w.inStore (w.store.createAssemblyRef w.writer.image (.ofText name)).2)
  | moduleRef (name : Bytes) (new : ∀ r ∈ w.home.moduleRefs, isModule name r = false) :
      Act w (w.inStore (w.store.createModuleRef w.writer.image name).2)
  | typeRef (ns name : Bytes) {scope : Row} (hs : w.Scope scope)
      (new : ∀ r ∈ w.home.typeRefs, isTypeReference scope ns name r = false) :
      Act w (w.inStore (w.store.addTypeRef w.writer.image ns name scope).2)
  | memberRef (name : Bytes) (sig : CallSig) (parent : Row) :
      Act w (w.inStore (w.store.createMemberRef w.writer.image name sig parent).2)
  | typeSpec (sig : TypeSig) : Act w (w.inStore (w.store.createTypeSpec sig).2)
  | methodSpec {method : Row} (sig : CallSig) (hm : w.RemembersMethod method) :
      Act w (w.inStore (w.store.createMethodSpec method sig).2)
  | topType (ns name : Bytes) (new : w.store.findType? w.writer.image ns name = none) :
      Act w (w.inStore (w.store.createType w.writer.image ns name).2)
  | nestedType (name : Bytes) {outer : TypeId} (ho : w.RemembersType (.typeDef outer))
      (new : ∀ t ∈ (w.store.typeDef outer).nestedTypes, (w.store.typeDef t).name ≠ name) :
      Act w (w.inStore (w.store.createNestedType w.writer.image [] name outer).2)
  | field (d : FieldDef) {t : TypeId} (ht : w.RemembersType (.typeDef t))
      (new : w.store.findField? t d.name d.signature = none)
      (hd : d.signature.MadeOf (w.store.Nameable w.writer.image) (· < w.store.nextRow)) :
      Act w (w.inStore (w.store.createField t d).2)
  | method (d : MethodDef) {t : TypeId} (ht : w.RemembersType (.typeDef t))
      (new : w.store.findMethod? t d.name d.signature = none)
      (hd : d.signature.MadeOf (w.store.Nameable w.writer.image) (· < w.store.nextRow)) :
      Act w (w.inStore (w.store.createMethod t d).2)
  | defineType {t : TypeId} {f : TypeDef → TypeDef} (ht : w.RemembersType (.typeDef t))
      (hf : KeepsMembers f) : Act w (w.inStore (w.store.modifyType t f))
  | orderTypes {t : TypeId} {ns : List TypeId} (ht : w.RemembersType (.typeDef t))
      (hn : ∀ n ∈ ns, w.RemembersType (.typeDef n) ∧ (w.store.typeDef n).declaring = some t) :
      Act w (w.inStore (w.store.modifyType t fun d =>
        { d with nestedTypes := reordered ns d.nestedTypes }))
  | orderFields {t : TypeId} {fs : List FieldId} (ht : w.RemembersType (.typeDef t))
      (hf : ∀ f ∈ fs, w.RemembersField (.fieldDef f) ∧ (w.store.fieldDef f).declaring = some t) :
      Act w (w.inStore (w.store.modifyType t fun d => { d with fields := reordered fs d.fields }))
  | orderMethods {t : TypeId} {fs : List MethodId} (ht : w.RemembersType (.typeDef t))
      (hf : ∀ f ∈ fs, w.RemembersMethod (.methodDef f) ∧ (w.store.methodDef f).declaring = some t) :
      Act w (w.inStore (w.store.modifyType t fun d => { d with methods := reordered fs d.methods }))
  | defineField {i : FieldId} {f : FieldDef → FieldDef} (hi : w.RemembersField (.fieldDef i))
      (hf : ∀ d, (f d).head = d.head) : Act w (w.inStore (w.store.modifyField i f))
  | defineMethod {i : MethodId} {f : MethodDef → MethodDef} (hi : w.RemembersMethod (.methodDef i))
      (hf : ∀ d, (f d).head = d.head) : Act w (w.inStore (w.store.modifyMethod i f))
  | rememberAssembly (name : Bytes) {r : Row} (hr : r ∈ w.home.assemblyRefs) :
      Act w { w with writer := { w.writer with assemblies := w.writer.assemblies ++ [(name, r)] } }
  | rememberType (id : TypeIdentity) {r : Row} (hr : w.FindsType r) :
      Act w { w with writer := { w.writer with types := w.writer.types ++ [(id, ⟨r, .reference⟩)] } }
  | rememberField (id : MemberIdentity) {r : Row}
      (hr : w.store.NameableField w.writer.image r) :
      Act w { w with writer := { w.writer with fields := w.writer.fields ++ [(id, ⟨r, .reference⟩)] } }
  | rememberMethod (id : MemberIdentity) {r : Row}
      (hr : w.store.NameableMethod w.writer.image r) :
      Act w { w with writer :=
        { w.writer with methods := w.writer.methods ++ [(id, ⟨r, .reference⟩)] } }
  | raiseType (id : TypeIdentity) (level : Level) :
      Act w { w with writer := { w.writer with types := w.writer.types.atLevel id level } }
  | raiseField (id : MemberIdentity) (level : Level) :
      Act w { w with writer := { w.writer with fields := w.writer.fields.atLevel id level } }
  | raiseMethod (id : MemberIdentity) (level : Level) :
      Act w { w with writer := { w.writer with methods := w.writer.methods.atLevel id level } }

/-- Any number of acts. -/
inductive Leads : WriteState → WriteState → Prop
  | refl (w : WriteState) : Leads w w
  | act {w w' w'' : WriteState} (h : Leads w w') (a : w'.Act w'') : Leads w w''

theorem Act.leads (a : w.Act w') : w.Leads w' := .act (.refl w) a

theorem Leads.trans (h : w.Leads w') (h' : w'.Leads w'') : w.Leads w'' := by
  induction h' with
  | refl => exact h
  | act _ a ih => exact .act ih a

/-! ### What acts keep -/

variable {r : Row}

theorem Act.writer_image (h : w.Act w') : w'.writer.image = w.writer.image := by
  cases h <;> rfl

theorem Act.hooks (h : w.Act w') : w'.writer.hooks = w.writer.hooks := by
  cases h <;> rfl

/-- Numbers of rows are given in order. -/
theorem Act.nextRow_le (h : w.Act w') : w.store.nextRow ≤ w'.store.nextRow := by
  cases h <;> first | exact Nat.le_refl _ | exact Nat.le_succ _

theorem Act.remembersAssembly (h : w.Act w') (hr : w.RemembersAssembly r) :
    w'.RemembersAssembly r := by
  cases h with
  | rememberAssembly =>
      obtain ⟨e, he, rfl⟩ := hr
      exact ⟨e, List.mem_append_left _ he, rfl⟩
  | _ => exact hr

theorem Act.remembersType (h : w.Act w') (hr : w.RemembersType r) : w'.RemembersType r := by
  cases h with
  | rememberType =>
      obtain ⟨e, he, rfl⟩ := hr
      exact ⟨e, List.mem_append_left _ he, rfl⟩
  | raiseType => exact Memory.exists_atLevel_iff.2 hr
  | _ => exact hr

theorem Act.remembersField (h : w.Act w') (hr : w.RemembersField r) : w'.RemembersField r := by
  cases h with
  | rememberField =>
      obtain ⟨e, he, rfl⟩ := hr
      exact ⟨e, List.mem_append_left _ he, rfl⟩
  | raiseField => exact Memory.exists_atLevel_iff.2 hr
  | _ => exact hr

theorem Act.remembersMethod (h : w.Act w') (hr : w.RemembersMethod r) : w'.RemembersMethod r := by
  cases h with
  | rememberMethod =>
      obtain ⟨e, he, rfl⟩ := hr
      exact ⟨e, List.mem_append_left _ he, rfl⟩
  | raiseMethod => exact Memory.exists_atLevel_iff.2 hr
  | _ => exact hr

/-- The row of an assembly that is remembered has been so, or is in the table. -/
theorem Act.assembly_cases (h : w.Act w') (hr : w'.RemembersAssembly r) :
    w.RemembersAssembly r ∨ r ∈ w.home.assemblyRefs := by
  cases h with
  | rememberAssembly name hm =>
      obtain ⟨e, he, rfl⟩ := hr
      rcases List.mem_append.1 he with he | he
      · exact .inl ⟨e, he, rfl⟩
      · cases List.mem_singleton.1 he
        exact .inr hm
  | _ => exact .inl hr

/-- The row of a type that is remembered has been so, or has just been found. -/
theorem Act.type_cases (h : w.Act w') (hr : w'.RemembersType r) :
    w.RemembersType r ∨ w.FindsType r := by
  cases h with
  | rememberType id hf =>
      obtain ⟨e, he, rfl⟩ := hr
      rcases List.mem_append.1 he with he | he
      · exact .inl ⟨e, he, rfl⟩
      · cases List.mem_singleton.1 he
        exact .inr hf
  | raiseType => exact .inl (Memory.exists_atLevel_iff.1 hr)
  | _ => exact .inl hr

/-- The row of a field that is remembered has been so, or has a name. -/
theorem Act.field_cases (h : w.Act w') (hr : w'.RemembersField r) :
    w.RemembersField r ∨ w.store.NameableField w.writer.image r := by
  cases h with
  | rememberField id hf =>
      obtain ⟨e, he, rfl⟩ := hr
      rcases List.mem_append.1 he with he | he
      · exact .inl ⟨e, he, rfl⟩
      · cases List.mem_singleton.1 he
        exact .inr hf
  | raiseField => exact .inl (Memory.exists_atLevel_iff.1 hr)
  | _ => exact .inl hr

/-- The row of a method that is remembered has been so, or has a name. -/
theorem Act.method_cases (h : w.Act w') (hr : w'.RemembersMethod r) :
    w.RemembersMethod r ∨ w.store.NameableMethod w.writer.image r := by
  cases h with
  | rememberMethod id hf =>
      obtain ⟨e, he, rfl⟩ := hr
      rcases List.mem_append.1 he with he | he
      · exact .inl ⟨e, he, rfl⟩
      · cases List.mem_singleton.1 he
        exact .inr hf
  | raiseMethod => exact .inl (Memory.exists_atLevel_iff.1 hr)
  | _ => exact .inl hr

theorem Act.type_row (h : w.Act w') {id : TypeIdentity} (hr : w.writer.types.row? id = some r) :
    w'.writer.types.row? id = some r := by
  cases h with
  | rememberType => exact Memory.row?_append hr
  | raiseType => exact (Memory.row?_atLevel _).trans hr
  | _ => exact hr

theorem Act.field_row (h : w.Act w') {id : MemberIdentity} (hr : w.writer.fields.row? id = some r) :
    w'.writer.fields.row? id = some r := by
  cases h with
  | rememberField => exact Memory.row?_append hr
  | raiseField => exact (Memory.row?_atLevel _).trans hr
  | _ => exact hr

theorem Act.method_row (h : w.Act w') {id : MemberIdentity}
    (hr : w.writer.methods.row? id = some r) : w'.writer.methods.row? id = some r := by
  cases h with
  | rememberMethod => exact Memory.row?_append hr
  | raiseMethod => exact (Memory.row?_atLevel _).trans hr
  | _ => exact hr

namespace Leads

theorem writer_image (h : w.Leads w') : w'.writer.image = w.writer.image := by
  induction h with
  | refl => rfl
  | act _ a ih => exact a.writer_image.trans ih

theorem remembersAssembly (h : w.Leads w') (hr : w.RemembersAssembly r) :
    w'.RemembersAssembly r := by
  induction h with
  | refl => exact hr
  | act _ a ih => exact a.remembersAssembly ih

theorem remembersType (h : w.Leads w') (hr : w.RemembersType r) : w'.RemembersType r := by
  induction h with
  | refl => exact hr
  | act _ a ih => exact a.remembersType ih

theorem remembersField (h : w.Leads w') (hr : w.RemembersField r) : w'.RemembersField r := by
  induction h with
  | refl => exact hr
  | act _ a ih => exact a.remembersField ih

theorem remembersMethod (h : w.Leads w') (hr : w.RemembersMethod r) : w'.RemembersMethod r := by
  induction h with
  | refl => exact hr
  | act _ a ih => exact a.remembersMethod ih

/-- The row that is remembered of a type never changes. -/
theorem type_row (h : w.Leads w') {id : TypeIdentity} (hr : w.writer.types.row? id = some r) :
    w'.writer.types.row? id = some r := by
  induction h with
  | refl => exact hr
  | act _ a ih => exact a.type_row ih

theorem field_row (h : w.Leads w') {id : MemberIdentity} (hr : w.writer.fields.row? id = some r) :
    w'.writer.fields.row? id = some r := by
  induction h with
  | refl => exact hr
  | act _ a ih => exact a.field_row ih

theorem method_row (h : w.Leads w') {id : MemberIdentity}
    (hr : w.writer.methods.row? id = some r) : w'.writer.methods.row? id = some r := by
  induction h with
  | refl => exact hr
  | act _ a ih => exact a.method_row ih

theorem nextRow_le (h : w.Leads w') : w.store.nextRow ≤ w'.store.nextRow := by
  induction h with
  | refl => exact Nat.le_refl _
  | act _ a ih => exact Nat.le_trans ih a.nextRow_le

theorem scope (h : w.Leads w') (hr : w.Scope r) : w'.Scope r := by
  cases hr with
  | assembly hr => exact .assembly (h.remembersAssembly hr)
  | type hr => exact .type (h.remembersType hr)

end Leads

end WriteState

end CilCatalog
