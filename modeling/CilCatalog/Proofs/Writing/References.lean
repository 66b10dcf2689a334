import CilCatalog.Proofs.Uses
import CilCatalog.Proofs.Writing.Runs

/-!
# References are written in acts

One lemma for each function that finds or makes what an identity or a tree stands for.
-/

namespace CilCatalog

open Live
open WriteState (Keeping Ready)

/-! ### What is there once it is made -/

namespace Live.Store

variable {s : Store} {i : ImageId}

theorem mem_createAssemblyRef (hi : i.index < s.images.length) (n : AssemblyName) :
    (s.createAssemblyRef i n).1 ∈ ((s.createAssemblyRef i n).2.image i).assemblyRefs := by
  rw [show (s.createAssemblyRef i n).2.image i = _ from image_modifyImage hi]
  exact List.mem_append_right _ (List.mem_singleton_self _)

theorem mem_addTypeRef (hi : i.index < s.images.length) (ns name : Bytes) (scope : Row) :
    (s.addTypeRef i ns name scope).1 ∈ ((s.addTypeRef i ns name scope).2.image i).typeRefs := by
  rw [show (s.addTypeRef i ns name scope).2.image i = _ from image_modifyImage hi]
  exact List.mem_append_right _ (List.mem_singleton_self _)

theorem mem_createType (hi : i.index < s.images.length) (ns name : Bytes) :
    (s.createType i ns name).1 ∈ ((s.createType i ns name).2.image i).types := by
  rw [show (s.createType i ns name).2.image i = _ from image_modifyImage hi]
  exact List.mem_append_right _ (List.mem_singleton_self _)

/-- A type made inside another is of the module it has been made for. -/
theorem owns_createNestedType (s : Store) (i : ImageId) (ns name : Bytes) (outer : TypeId) :
    (s.createNestedType i ns name outer).2.Owns i (s.createNestedType i ns name outer).1 ∧
      ((s.createNestedType i ns name outer).2.typeDef
        (s.createNestedType i ns name outer).1).declaring = some outer := by
  let d : TypeDef := { image := i, ns, name, declaring := some outer }
  let s' : Store := { s with typeDefs := s.typeDefs ++ [d] }
  have new : s'.typeDef ⟨s.typeDefs.length⟩ = d := typeDef_new rfl
  have length : s.typeDefs.length < s'.typeDefs.length := by
    rw [List.length_append]
    exact Nat.lt_succ_self _
  have kept : ((s.createNestedType i ns name outer).2.typeDef
      (s.createNestedType i ns name outer).1).head = d.head := by
    rw [← new]
    exact head_modifyType (σ := s') (f := fun e => { e with nestedTypes := e.nestedTypes ++ [_] })
      (fun _ => rfl) _
  refine ⟨⟨?_, congrArg (·.1) kept⟩, congrArg (·.2.2.2) kept⟩
  exact (length_modifyType outer _).symm ▸ length

end Live.Store

/-! ### What is remembered of types -/

/-- How many types there are around a type. -/
def TypeIdentity.depth (id : TypeIdentity) : Nat := (id.enclosing.getD []).length

theorem TypeIdentity.depth_of_same {a b : TypeIdentity} (h : Identity.same a b = true) :
    a.depth = b.depth := by
  have he : Comparison.reference.optionalList (· == ·) a.enclosing b.enclosing = true :=
    (Bool.and_eq_true_iff.1 h).2
  unfold depth
  cases ha : a.enclosing with
  | none =>
      cases hb : b.enclosing with
      | none => rfl
      | some bs =>
          rw [ha, hb] at he
          rw [List.isEmpty_iff.1 (show bs.isEmpty = true from he)]
          rfl
  | some as =>
      cases hb : b.enclosing with
      | none =>
          rw [ha, hb] at he
          rw [List.isEmpty_iff.1 (show as.isEmpty = true from he)]
          rfl
      | some bs =>
          rw [ha, hb] at he
          rw [Comparison.eq_of_list (fun _ _ => beq_iff_eq.1) as bs he]

namespace WriteState

variable {w w' w'' : WriteState} {c : Catalog} {id : TypeIdentity} {k : Token} {r : Row}

/-- The row is the one that is remembered of the entity under a token. -/
def Resolves (w : WriteState) (c : Catalog) : EntityKind → Token → Row → Prop
  | .type, k, r   => ∃ e, c.types.get? k = some e ∧ w.writer.types.row? e.identity = some r
  | .field, k, r  => ∃ e, c.fields.get? k = some e ∧ w.writer.fields.row? e.identity = some r
  | .method, k, r => ∃ e, c.methods.get? k = some e ∧ w.writer.methods.row? e.identity = some r

/-- Nothing has happened to members, neither in the module nor in what is remembered. -/
structure Spares (w w' : WriteState) : Prop where
  fieldDefs : w'.store.fieldDefs = w.store.fieldDefs
  methodDefs : w'.store.methodDefs = w.store.methodDefs
  fields : w'.writer.fields = w.writer.fields
  methods : w'.writer.methods = w.writer.methods
  nextRow : w.store.nextRow ≤ w'.store.nextRow

/-- Nothing new is remembered but of types with less than `n` types around them. -/
structure Within (w : WriteState) (n : Nat) (w' : WriteState) : Prop extends w.Spares w' where
  types : ∀ id : TypeIdentity, n ≤ id.depth → w'.writer.types.find? id = w.writer.types.find? id

/-- The number has been given on the way. -/
def Fresh (w w' : WriteState) (n : Nat) : Prop := w.store.nextRow ≤ n ∧ n < w'.store.nextRow

theorem Resolves.remembersType (h : w.Resolves c .type k r) : w.RemembersType r := by
  obtain ⟨e, -, hr⟩ := h
  exact Memory.mem_of_row? hr

theorem Resolves.remembersField (h : w.Resolves c .field k r) : w.RemembersField r := by
  obtain ⟨e, -, hr⟩ := h
  exact Memory.mem_of_row? hr

theorem Resolves.remembersMethod (h : w.Resolves c .method k r) : w.RemembersMethod r := by
  obtain ⟨e, -, hr⟩ := h
  exact Memory.mem_of_row? hr

/-- A token stands for one row. -/
theorem Resolves.unique {kind : EntityKind} {r' : Row} (h : w.Resolves c kind k r)
    (h' : w.Resolves c kind k r') : r = r' := by
  cases kind <;>
  · obtain ⟨e, he, hr⟩ := h
    obtain ⟨e', he', hr'⟩ := h'
    cases he.symm.trans he'
    exact Option.some.inj (hr.symm.trans hr')

/-- What is remembered keeps its row. -/
theorem Resolves.leads {kind : EntityKind} (h : w.Resolves c kind k r) (hl : w.Leads w') :
    w'.Resolves c kind k r := by
  cases kind with
  | type => exact h.imp fun _ h => ⟨h.1, hl.type_row h.2⟩
  | field => exact h.imp fun _ h => ⟨h.1, hl.field_row h.2⟩
  | method => exact h.imp fun _ h => ⟨h.1, hl.method_row h.2⟩

theorem Leads.fresh {n : Nat} (hl : w'.Leads w'') (h : w.Fresh w' n) : w.Fresh w'' n :=
  ⟨h.1, Nat.lt_of_lt_of_le h.2 hl.nextRow_le⟩

theorem Spares.refl (w : WriteState) : w.Spares w := ⟨rfl, rfl, rfl, rfl, Nat.le_refl _⟩

theorem Spares.trans (h : w.Spares w') (h' : w'.Spares w'') : w.Spares w'' :=
  ⟨h'.fieldDefs.trans h.fieldDefs, h'.methodDefs.trans h.methodDefs, h'.fields.trans h.fields,
    h'.methods.trans h.methods, Nat.le_trans h.nextRow h'.nextRow⟩

theorem Spares.memberRows (h : w.Spares w') : w'.store.memberRows = w.store.memberRows := by
  rw [Store.memberRows, h.fieldDefs, h.methodDefs, Store.memberRows]

namespace Within

variable {n m : Nat}

theorem refl (n : Nat) (w : WriteState) : w.Within n w := ⟨.refl w, fun _ _ => rfl⟩

theorem trans (h : w.Within n w') (h' : w'.Within n w'') : w.Within n w'' :=
  ⟨h.toSpares.trans h'.toSpares, fun id hid => (h'.types id hid).trans (h.types id hid)⟩

theorem mono (h : w.Within n w') (hm : n ≤ m) : w.Within m w' :=
  ⟨h.toSpares, fun id hid => h.types id (Nat.le_trans hm hid)⟩

/-- A change of types in the store. -/
theorem of_store {s : Store} (hf : s.fieldDefs = w.store.fieldDefs)
    (hm : s.methodDefs = w.store.methodDefs) (hn : w.store.nextRow ≤ s.nextRow) :
    w.Within 0 (w.inStore s) :=
  ⟨⟨hf, hm, rfl, rfl, hn⟩, fun _ _ => rfl⟩

end Within

end WriteState

namespace Runs

variable {I : WriteState → Prop} [Keeping I] {w w' : WriteState}

/-! ### Assemblies and modules -/

/-- A writer that asks nothing is told nothing. -/
theorem askForAssembly {name : Bytes} :
    Runs I w (Writing.askForAssembly name) fun w' r => w' = w ∧ r = .null := by
  intro hw
  have hnone : w.writer.hooks.assembly = none := by rw [(Keeping.calm hw).hooks]
  have h : Writing.askForAssembly name w = (.ok .null, w) := by
    rw [Writing.askForAssembly, run_bind_ok (gives_writer.2 ⟨rfl, rfl⟩), hnone]
    rfl
  rw [h]
  refine ⟨.refl w, ?_⟩
  rintro _ ⟨⟩
  exact ⟨rfl, rfl⟩

theorem askForType {assembly : Row} {id : TypeIdentity} :
    Runs I w (Writing.askForType assembly id) fun w' r => w' = w ∧ r = .null := by
  intro hw
  have hnone : w.writer.hooks.type = none := by rw [(Keeping.calm hw).hooks]
  have h : Writing.askForType assembly id w = (.ok .null, w) := by
    rw [Writing.askForType, run_bind_ok (gives_writer.2 ⟨rfl, rfl⟩), hnone]
    rfl
  rw [h]
  refine ⟨.refl w, ?_⟩
  rintro _ ⟨⟩
  exact ⟨rfl, rfl⟩

/-- Nothing that is looked at is what is looked for. -/
theorem not_of_find? {α : Type} {p : α → Bool} {as : List α} (h : as.find? p = none) :
    ∀ a ∈ as, p a = false := fun a ha => eq_false_of_ne_true (List.find?_eq_none.1 h a ha)

theorem assemblyRow {name : Bytes} : Runs I w (Writing.assemblyRow name) fun w' r =>
    w'.RemembersAssembly r ∧ w.Within 0 w' := by
  have remember : ∀ {w₁ : WriteState} {r : Row}, r ∈ w₁.home.assemblyRefs → w.Within 0 w₁ →
      Runs I w₁ (do
        Writing.modifyWriter fun w => { w with assemblies := w.assemblies ++ [(name, r)] }
        return r) fun w' r => w'.RemembersAssembly r ∧ w.Within 0 w' := by
    intro w₁ r hr hw₁
    refine (modifyWriter (.rememberAssembly name hr)).bind ?_
    rintro _ _ - rfl
    refine pure ⟨⟨(name, r), List.mem_append_right _ (List.mem_singleton_self _), rfl⟩, ?_⟩
    exact hw₁.trans ⟨⟨rfl, rfl, rfl, rfl, Nat.le_refl _⟩, fun _ _ => rfl⟩
  unfold Writing.assemblyRow
  refine guard fun _ => bind_writer ?_
  split
  · next r hr =>
      obtain ⟨as, bs, heq, -⟩ := List.lookup_eq_some_iff.1 hr
      refine pure ⟨⟨(name, r), ?_, rfl⟩, .refl _ w⟩
      rw [heq]
      exact List.mem_append_right _ List.mem_cons_self
  · refine askForAssembly.bind ?_
    rintro _ w - ⟨rfl, rfl⟩
    refine bind_store (bind_writer ?_)
    dsimp only [Row.isNull, if_true]
    split
    · next r hr => exact remember (List.mem_of_find?_eq_some hr) (.refl _ w)
    · next hn =>
        refine (making (Q := fun w' r => r ∈ w'.home.assemblyRefs ∧ w.Within 0 w')
          (.assemblyRef name (not_of_find? hn)) fun hw => ⟨?_, .of_store rfl rfl (Nat.le_succ _)⟩).bind
            fun _ hr => remember hr.1 hr.2
        exact Store.mem_createAssemblyRef (Keeping.calm hw).image _

omit [Keeping I] in
theorem moduleRow {name : Bytes} : Runs I w (Writing.moduleRow name) fun _ _ => True := by
  unfold Writing.moduleRow
  refine bind_store (bind_writer ?_)
  split
  · exact pure trivial
  · next hn => exact making (.moduleRef name (not_of_find? hn)) fun _ => trivial

/-! ### Types -/

theorem referenceIn {scope : Row} {ns name : Bytes} (hs : w.Scope scope)
    (hn : scope.isNull = false) :
    Runs I w (Writing.referenceIn scope ns name) fun w' r =>
      w'.FindsType r ∧ w.Within 0 w' := by
  rw [Writing.referenceIn_eq hn]
  refine bind_store (bind_writer ?_)
  split
  · next r hr =>
      have hmem := List.mem_of_find?_eq_some hr
      have his := List.find?_some hr
      unfold Writing.isTypeReference at his
      split at his
      · rw [Bool.and_eq_true, Bool.and_eq_true] at his
        exact pure ⟨.referred hs hmem his.1.1, .refl _ w⟩
      · exact absurd his Bool.false_ne_true
  · next hn =>
      have hact := WriteState.Act.typeRef ns name hs (not_of_find? hn)
      exact making hact fun hw => ⟨.referred (hact.leads.scope hs)
        (Store.mem_addTypeRef (Keeping.calm hw).image _ _ _) (beq_self_eq_true _), .of_store rfl rfl (Nat.le_succ _)⟩

theorem nestedDefinition {outer : TypeId} {name : Bytes} (ho : w.RemembersType (.typeDef outer)) :
    Runs I w (Writing.nestedDefinition outer name) fun w' r =>
      w'.FindsType r ∧ w.Within 0 w' := by
  rw [Writing.nestedDefinition_eq]
  refine bind_store ?_
  split
  · next t ht => exact pure ⟨.nested ho (List.mem_of_find?_eq_some ht), .refl _ w⟩
  · next hn =>
      have hact := WriteState.Act.nestedType name ho fun t ht =>
        ne_of_beq_false (not_of_find? hn t ht)
      refine (making (Q := fun w' t => w'.FindsType (.typeDef t) ∧ w.Within 0 w') hact
        fun _ => ⟨?_, .of_store rfl rfl (Nat.le_refl _)⟩).bind fun _ h => pure h
      obtain ⟨hi, hd⟩ := w.store.owns_createNestedType w.writer.image [] name outer
      exact .made (hact.leads.remembersType ho) hi hd

theorem topDefinition {ns name : Bytes} :
    Runs I w (Writing.topDefinition ns name) fun w' r =>
      w'.FindsType r ∧ w.Within 0 w' := by
  unfold Writing.topDefinition
  refine bind_store (bind_writer ?_)
  split
  · next t ht => exact pure ⟨.top (List.mem_of_find?_eq_some ht), .refl _ w⟩
  · next hn =>
      exact (making (Q := fun w' t => w'.FindsType (.typeDef t) ∧ w.Within 0 w')
        (.topType ns name hn) fun hw => ⟨.top (Store.mem_createType (Keeping.calm hw).image _ _),
          .of_store rfl rfl (Nat.le_refl _)⟩).bind fun _ h => pure h

theorem rowInside {outer : Row} {name : Bytes} (ho : w.RemembersType outer) :
    Runs I w (Writing.rowInside outer name) fun w' r =>
      w'.FindsType r ∧ w.Within 0 w' := by
  refine bind_askable fun hn => ?_
  split
  · exact nestedDefinition ho
  · exact referenceIn (.type ho) hn
  · exact refuse

/-- What has been found for a type is remembered of it, if nothing was remembered of it on the way. -/
theorem rememberType {id : TypeIdentity} {resolve : Writing Row} {n : Nat} (hn : id.depth = n)
    (h : Runs I w resolve fun w' r => w'.FindsType r ∧ w.Within n w') :
    Runs I w (Writing.rememberType id resolve) fun w' r =>
      w'.writer.types.row? id = some r ∧ w.Within (n + 1) w' := by
  unfold Writing.rememberType
  refine bind_writer ?_
  split
  · next z hz => exact pure ⟨by rw [Memory.row?, hz]; rfl, .refl _ w⟩
  · next hnone =>
      refine h.bind fun {r w₁} _ hr => (modifyWriter (.rememberType id hr.1)).bind ?_
      rintro _ _ - rfl
      have hnew : w₁.writer.types.find? id = none :=
        (hr.2.types id (Nat.le_of_eq hn.symm)).trans hnone
      refine pure ⟨Memory.row?_append_self hnew, ⟨hr.2.toSpares.trans ?_, fun id' hid' => ?_⟩⟩
      · exact ⟨rfl, rfl, rfl, rfl, Nat.le_refl _⟩
      · have hne : Identity.same id id' = false := eq_false_of_ne_true fun hs => by
          have := TypeIdentity.depth_of_same hs
          omega
        exact (Memory.find?_append_of_not_same hne).trans (hr.2.types id' (Nat.le_of_succ_le hid'))

/-- A type is the global one, or is looked up with its assembly, as the owner has nothing to say about it. -/
theorem resolution {id : TypeIdentity} {lookUp : Row → Writing Row} {n : Nat}
    (h : ∀ {w assembly}, assembly = .null ∨ w.RemembersAssembly assembly →
      Runs I w (lookUp assembly) fun w' r => w'.FindsType r ∧ w.Within n w') :
    Runs I w (do
      if Writing.isGlobalType id then return .typeDef ((← Writing.store).globalType (← Writing.writer).image)
      let assembly ← match id.assembly with
        | none   => Pure.pure .null
        | some n => Writing.assemblyRow n
      let answer ← Writing.askForType assembly id
      if !answer.isNull then
        if assembly.isNull && answer.kind? != some .typeDef then
          Writing.refuse (.answeredBy id.name answer.kindName)
        return answer
      lookUp assembly) fun w' r => w'.FindsType r ∧ w.Within n w' := by
  have asked : ∀ {w₁ assembly}, assembly = .null ∨ w₁.RemembersAssembly assembly →
      w.Within 0 w₁ → Runs I w₁ (do
        let answer ← Writing.askForType assembly id
        if !answer.isNull then
          if assembly.isNull && answer.kind? != some .typeDef then
            Writing.refuse (.answeredBy id.name answer.kindName)
          return answer
        lookUp assembly) fun w' r => w'.FindsType r ∧ w.Within n w' := by
    intro w₁ assembly ha ht
    refine askForType.bind ?_
    rintro _ _ - ⟨rfl, rfl⟩
    exact (h ha).imp fun hr => ⟨hr.1, (ht.mono (Nat.zero_le n)).trans hr.2⟩
  refine ite (fun _ => bind_store (bind_writer (pure ⟨.global, .refl _ w⟩))) fun _ => ?_
  cases id.assembly with
  | none => exact asked (.inl rfl) (.refl _ w)
  | some n => exact assemblyRow.bind fun _ ha => asked (.inr ha.1) ha.2

theorem typeRowIn {names : List Bytes} {id : TypeIdentity} (hn : id.enclosing.getD [] = names) :
    Runs I w (Writing.typeRowIn names id) fun w' r =>
      w'.writer.types.row? id = some r ∧ w.Within (names.length + 1) w' := by
  have hdepth : id.depth = names.length := congrArg List.length hn
  induction names generalizing id w with
  | nil =>
      rw [Writing.typeRowIn]
      refine rememberType hdepth (resolution fun {w assembly} ha => ?_)
      refine ite (fun _ => topDefinition.imp fun h => ⟨h.1, h.2.mono (Nat.zero_le _)⟩) fun hn => ?_
      refine (referenceIn (.assembly (ha.resolve_left ?_)) (eq_false_of_ne_true hn)).imp fun h =>
        ⟨h.1, h.2.mono (Nat.zero_le _)⟩
      rintro rfl
      exact hn rfl
  | cons outer rest ih =>
      rw [Writing.typeRowIn]
      have hrest : (Writing.outerIdentity id outer rest).enclosing.getD [] = rest := by
        cases rest <;> rfl
      exact rememberType hdepth (resolution fun _ => (ih hrest (congrArg List.length hrest)).bind
        fun _ hr => (rowInside (Memory.mem_of_row? hr.1)).imp fun h =>
          ⟨h.1, hr.2.trans (h.2.mono (Nat.zero_le _))⟩)

/-- A type has the row that is remembered of it from then on. -/
theorem typeRow {id : TypeIdentity} : Runs I w (Writing.typeRow id) fun w' r =>
    w'.writer.types.row? id = some r ∧ w.Spares w' :=
  (typeRowIn rfl).imp fun h => ⟨h.1, h.2.toSpares⟩

variable (c : Catalog)

theorem typeOfToken (t : Token) :
    Runs I w (Writing.typeOfToken c t) fun w' r => w'.Resolves c .type t r ∧ w.Spares w' :=
  bind_lookUp fun he => typeRow.imp fun h => ⟨⟨_, he, h.1⟩, h.2⟩

end Runs

/-! ### Signatures -/

/-- Whatever the tree is written as, it is written in acts that have to do with types only.  What comes of it names types that are remembered, and its type specifications have been made since `w₀`. -/
structure TreeRuns (I : WriteState → Prop) (c : Catalog) (w₀ : WriteState) (t : SigTree) : Prop where
  row : ∀ {w}, w₀.Spares w → Runs I w (Writing.rowOfTree c t) fun w' r =>
    w₀.Spares w' ∧ r.MadeOf w'.RemembersType (w₀.Fresh w')
  type : ∀ {w}, w₀.Spares w → Runs I w (Writing.typeSigOf c t) fun w' sig =>
    w₀.Spares w' ∧ sig.MadeOf w'.RemembersType (w₀.Fresh w')
  call : ∀ {w}, w₀.Spares w → Runs I w (Writing.callSigOf c t) fun w' sig =>
    w₀.Spares w' ∧ sig.MadeOf w'.RemembersType (w₀.Fresh w')

section Leads

variable {w₀ w w' : WriteState}

theorem Live.Row.MadeOf.leads {r : Row} (h : r.MadeOf w.RemembersType (w₀.Fresh w))
    (hl : w.Leads w') : r.MadeOf w'.RemembersType (w₀.Fresh w') :=
  r.madeOf_mono hl.remembersType hl.fresh h

theorem Live.TypeSig.MadeOf.leads {t : TypeSig} (h : t.MadeOf w.RemembersType (w₀.Fresh w))
    (hl : w.Leads w') : t.MadeOf w'.RemembersType (w₀.Fresh w') :=
  t.madeOf_mono hl.remembersType hl.fresh h

theorem Live.TypeSig.AllMadeOf.leads {ts : List TypeSig}
    (h : TypeSig.AllMadeOf w.RemembersType (w₀.Fresh w) ts) (hl : w.Leads w') :
    TypeSig.AllMadeOf w'.RemembersType (w₀.Fresh w') ts :=
  TypeSig.allMadeOf_mono hl.remembersType hl.fresh ts h

theorem Live.CallSig.MadeOf.leads {c : CallSig} (h : c.MadeOf w.RemembersType (w₀.Fresh w))
    (hl : w.Leads w') : c.MadeOf w'.RemembersType (w₀.Fresh w') :=
  c.madeOf_mono hl.remembersType hl.fresh h

end Leads

namespace Runs

variable {I : WriteState → Prop} [Keeping I] {w₀ w w' : WriteState} (c : Catalog)

theorem typeSigsOf {as : List SigTree} (h : ∀ a ∈ as, TreeRuns I c w₀ a) (hw : w₀.Spares w) :
    Runs I w (Writing.typeSigsOf c as) fun w' sigs =>
      w₀.Spares w' ∧ TypeSig.AllMadeOf w'.RemembersType (w₀.Fresh w') sigs := by
  induction as generalizing w with
  | nil => exact pure ⟨hw, trivial⟩
  | cons a as ih =>
      rw [List.forall_mem_cons] at h
      exact (h.1.type hw).bind fun _ ha => (ih h.2 ha.1).bind fun hl has =>
        pure ⟨has.1, ha.2.leads hl, has.2⟩

theorem typeSigOfCode {code : UInt8} {as : List SigTree} (h : ∀ a ∈ as, TreeRuns I c w₀ a)
    (hw : w₀.Spares w) :
    Runs I w (Writing.typeSigOfCode c code as) fun w' sig =>
      w₀.Spares w' ∧ sig.MadeOf w'.RemembersType (w₀.Fresh w') := by
  rw [Writing.typeSigOfCode_eq]
  split
  · exact refuse
  · split
    · exact bind_argument fun _ => pure ⟨hw, trivial⟩
    · split
      all_goals first
        | exact refuse
        | exact bind_argument fun _ => pure ⟨hw, trivial⟩
        | exact (typeOfToken c _).bind fun _ h => pure ⟨hw.trans h.2, h.1.remembersType⟩
        | simp only [List.forall_mem_cons] at h
      all_goals first
        | exact (h.1.type hw).bind fun _ h => pure h
        | exact (h.1.call hw).bind fun _ h => ite (fun _ => pure h) fun _ => refuse
        | exact (h.1.type hw).bind fun _ h => bind_argument fun _ => pure h
        | exact (h.1.type hw).bind fun _ _ => refuse
        | exact (h.1.row hw).bind fun _ hm => (h.2.1.type hm.1).bind fun hl h =>
            pure ⟨h.1, hm.2.leads hl, h.2⟩
        | exact bind_argument fun _ => (h.2.1.type hw).bind fun _ h => pure h
        | exact (h.1.type hw).bind fun _ ht => bind_argument fun _ => bind_argument fun _ =>
            (typeSigsOf c h.2.2 ht.1).bind fun hl h => pure ⟨h.1, ht.2.leads hl, h.2⟩

theorem parametersOf {after : Bool} {as : List SigTree} (h : ∀ a ∈ as, TreeRuns I c w₀ a)
    (hw : w₀.Spares w) :
    Runs I w (Writing.parametersOf c after as) fun w' p => w₀.Spares w' ∧
      TypeSig.AllMadeOf w'.RemembersType (w₀.Fresh w') p.1 ∧
      TypeSig.AllMadeOf w'.RemembersType (w₀.Fresh w') p.2 := by
  induction as generalizing after w with
  | nil => exact pure ⟨hw, trivial, trivial⟩
  | cons a as ih =>
      rw [List.forall_mem_cons] at h
      rw [Writing.parametersOf]
      refine ite (fun _ => guard fun _ => ih h.2 hw) fun _ =>
        (h.1.type hw).bind fun _ ha => (ih h.2 ha.1).bind fun hl has => pure ?_
      split
      · exact ⟨has.1, has.2.1, ha.2.leads hl, has.2.2⟩
      · exact ⟨has.1, ⟨ha.2.leads hl, has.2.1⟩, has.2.2⟩

theorem methodSigOf {k : CallingConvention} (hk : k.isMethodLike = true) {f : UInt8}
    (hf : f &&& CallingConvention.mask = 0) {g : UInt32} {i : Nat} {as : List SigTree}
    (h : ∀ a ∈ as, TreeRuns I c w₀ a) (hw : w₀.Spares w) :
    Runs I w (Writing.methodSigOf c k f g i as) fun w' sig =>
      w₀.Spares w' ∧ sig.MadeOf w'.RemembersType (w₀.Fresh w') := by
  rw [Writing.methodSigOf_eq hk hf]
  split
  · exact refuse
  · exact bind_argument fun _ => refuse
  · simp only [List.forall_mem_cons] at h
    exact bind_argument fun _ => (h.2.1.type hw).bind fun _ hr =>
      (parametersOf c h.2.2 hr.1).bind fun hl hps => guard fun _ =>
        pure ⟨hps.1, CallingConvention.isMethodLikeRaw_or hk hf, hr.2.leads hl, hps.2⟩

theorem countedTypesOf {k : CallingConvention} {as : List SigTree}
    (h : ∀ a ∈ as, TreeRuns I c w₀ a) (hw : w₀.Spares w) :
    Runs I w (Writing.countedTypesOf c k as) fun w' sigs =>
      w₀.Spares w' ∧ TypeSig.AllMadeOf w'.RemembersType (w₀.Fresh w') sigs := by
  rw [Writing.countedTypesOf_eq]
  split
  · exact refuse
  · rw [List.forall_mem_cons] at h
    exact bind_argument fun _ => bind_argument fun _ => typeSigsOf c h.2 hw

theorem callSigOfCode {code : UInt8} {as : List SigTree} (h : ∀ a ∈ as, TreeRuns I c w₀ a)
    (hw : w₀.Spares w) :
    Runs I w (Writing.callSigOf c (.callSig code as)) fun w' sig =>
      w₀.Spares w' ∧ sig.MadeOf w'.RemembersType (w₀.Fresh w') := by
  rw [Writing.callSigOf_eq]
  split
  · exact refuse
  · exact refuse
  · rw [List.forall_mem_cons] at h
    refine bind_argument fun _ => ?_
    split
    · exact refuse
    · next f hf =>
      split
      · next hk =>
        split
        · exact methodSigOf c hk (Writing.mask_of_flagsOf hf) h.2 hw
        · split
          · exact refuse
          · simp only [List.forall_mem_cons] at h
            exact bind_argument fun _ => methodSigOf c hk (Writing.mask_of_flagsOf hf) h.2.2 hw
      · refine ite (fun _ => refuse) fun _ => ?_
        split
        · simp only [List.forall_mem_cons] at h
          exact (h.2.1.type hw).bind fun _ h => pure h
        · exact refuse
        · exact (countedTypesOf c h.2 hw).bind fun _ h => pure h
        · exact (countedTypesOf c h.2 hw).bind fun _ h => pure h

end Runs

theorem treeRuns {I : WriteState → Prop} [Keeping I] (c : Catalog) (w₀ : WriteState) (t : SigTree) :
    TreeRuns I c w₀ t := by
  induction t using SigTree.induction with
  | h t ih =>
      constructor
      · intro w hw
        unfold Writing.rowOfTree
        split
        · exact (Runs.typeOfToken c _).kept.imp fun h => ⟨hw.trans h.1.2,
            Row.madeOf_of_isNamedType ((Keeping.calm h.2).named h.1.1.remembersType)
              h.1.1.remembersType⟩
        · refine (Runs.typeSigOfCode c ih hw).bind fun {sig w₁} _ h =>
            Runs.making (.typeSpec sig) fun _ => ?_
          have hn : w₁.store.nextRow ≤ (w₁.store.createTypeSpec sig).2.nextRow := Nat.le_succ _
          refine ⟨h.1.trans ⟨rfl, rfl, rfl, rfl, hn⟩, ⟨h.1.nextRow, Nat.lt_succ_self _⟩, ?_⟩
          exact h.2.leads (WriteState.Act.typeSpec sig).leads
        · exact Runs.refuse
      · intro w hw
        unfold Writing.typeSigOf
        split
        · exact Runs.typeSigOfCode c ih hw
        · exact Runs.refuse
      · intro w hw
        cases t with
        | callSig => exact Runs.callSigOfCode c ih hw
        | _ => exact Runs.refuse

namespace Runs

variable {I : WriteState → Prop} [Keeping I] {w w' : WriteState} (c : Catalog)

theorem rowOfTree (t : SigTree) : Runs I w (Writing.rowOfTree c t) fun w' r =>
    w.Spares w' ∧ r.MadeOf w'.RemembersType (w.Fresh w') :=
  (treeRuns c w t).row (.refl w)

theorem typeSigOf (t : SigTree) : Runs I w (Writing.typeSigOf c t) fun w' sig =>
    w.Spares w' ∧ sig.MadeOf w'.RemembersType (w.Fresh w') :=
  (treeRuns c w t).type (.refl w)

theorem callSigOf (t : SigTree) : Runs I w (Writing.callSigOf c t) fun w' sig =>
    w.Spares w' ∧ sig.MadeOf w'.RemembersType (w.Fresh w') :=
  (treeRuns c w t).call (.refl w)

end Runs

/-! ### Fields and methods -/

/-- The row of the entity under a token. -/
def Writing.rowOfToken (c : Catalog) : EntityKind → Token → Writing Row
  | .type   => typeOfToken c
  | .field  => fieldOfToken c
  | .method => methodOfToken c

namespace WriteState

variable {w w' : WriteState} {parent : Row} {sig : CallSig}

/-- What is known of a member when its declaring type and its signature have been written.  The numbers in the signature are new to the module's members, or they are in the tables of its references. -/
structure Parts (w w' : WriteState) (parent : Row) (sig : CallSig) : Prop where
  ready : w'.Ready
  spares : w.Spares w'
  parent : parent.MadeOf w'.RemembersType fun _ => True
  signature : ∃ lo, (∀ x ∈ w'.store.memberRows, ∀ {n}, x.number? = some n → n < lo) ∧
    sig.MadeOf w'.RemembersType fun n => lo ≤ n ∧ n < w'.store.nextRow

/-- An entity that is remembered is written to its row without a change. -/
theorem Resolves.gives {c : Catalog} {kind : EntityKind} {k : Token} {r : Row}
    (h : w.Resolves c kind k r) : Gives (Writing.rowOfToken c kind k) w r w := by
  cases kind with
  | type =>
      obtain ⟨e, he, hr⟩ := h
      obtain ⟨z, hz, rfl⟩ := Option.map_eq_some_iff.1 hr
      refine gives_bind_lookUp.2 ⟨e, he, ?_⟩
      rw [Writing.typeRow, Writing.typeRowIn.eq_def]
      refine gives_bind_writer.2 ?_
      rw [hz]
      exact gives_pure.2 ⟨rfl, rfl⟩
  | field | method =>
      obtain ⟨e, he, hr⟩ := h
      obtain ⟨z, hz, rfl⟩ := Option.map_eq_some_iff.1 hr
      refine gives_bind_lookUp.2 ⟨e, he, gives_bind_writer.2 ?_⟩
      rw [hz]
      exact gives_pure.2 ⟨rfl, rfl⟩

namespace Parts

variable (h : w.Parts w' parent sig)

include h

theorem parentReadable : parent.Readable w'.store w'.writer.image :=
  parent.madeOf_mono h.ready.types id h.parent

theorem made : sig.MadeOf (w'.store.Nameable w'.writer.image) (· < w'.store.nextRow) := by
  obtain ⟨lo, -, hsig⟩ := h.signature
  exact sig.madeOf_mono h.ready.types (·.2) hsig

theorem readable : sig.Readable w'.store w'.writer.image :=
  sig.madeOf_mono id (fun _ => trivial) h.made

/-- The signature of a member that is equal to a written one is read as that. -/
theorem legible {c : CallSig} (hc : ∀ x ∈ c.rows, x ∈ w'.store.memberRows)
    (he : c.sigEq sig = true) : c.Legible w'.store w'.writer.image := by
  obtain ⟨lo, hlo, hsig⟩ := h.signature
  exact Store.legible_of_sigEq (fun x hx => h.ready.tabled.members x (hc x hx))
    (fun x hx => hlo x (hc x hx)) (sig.madeOf_mono h.ready.types (·.1) hsig) he

end Parts

end WriteState

namespace Runs

variable {w w' : WriteState} (c : Catalog) {α : Type} {Q : WriteState → α → Prop}

/-- Before a member is looked for, its declaring type and its signature are written. -/
theorem bind_parts {id : MemberIdentity} {f : Row → CallSig → Writing α}
    (h : ∀ {w' parent sig}, w.Parts w' parent sig → Runs Ready w' (f parent sig) Q) :
    Runs Ready w (do
      let parent ← Writing.rowOfTree c id.type
      let sig ← Writing.callSigOf c id.signature
      f parent sig) Q := by
  refine (rowOfTree c _).kept.bind ?_
  rintro parent w₁ - ⟨⟨hs₁, hp⟩, hw₁⟩
  refine (callSigOf c _).kept.bind ?_
  rintro sig w₂ hl ⟨⟨hs₂, hsig⟩, hw₂⟩
  -- what is in the signatures of members has been there before the signature was written
  refine h ⟨hw₂, hs₁.trans hs₂, parent.madeOf_mono hl.remembersType (fun _ => trivial) hp,
    w₁.store.nextRow, fun x hx => ?_, hsig⟩
  exact (hw₁.tabled.members x (hs₂.memberRows ▸ hx)).number

/-- A field that has been found or made has a name, and nothing is remembered of fields meanwhile. -/
theorem resolveField {id : MemberIdentity} : Runs Ready w (Writing.resolveField c id) fun w' r =>
    w'.store.NameableField w'.writer.image r ∧ w'.writer.fields = w.writer.fields := by
  rw [Writing.resolveField_eq]
  refine bind_parts c fun {w₂ parent sig} hp => guard fun hs => bind_askable fun _ => ?_
  rw [Bool.not_eq_true', Bool.not_eq_false] at hs
  split
  · next t _ =>
      have ht : w₂.RemembersType (.typeDef t) := hp.parent
      obtain ⟨ho⟩ : w₂.store.Nameable w₂.writer.image (.typeDef t) := hp.ready.types ht
      refine bind_store ?_
      split
      · next f hf =>
          obtain ⟨hmem, heq⟩ := Store.of_findField? hf
          have hd := hp.ready.housed.fields ho f hmem
          exact pure ⟨.defined hd ho (hp.legible (Store.fieldRows_subset (Store.field_lt hd)) heq),
            hp.spares.fields⟩
      · next hn =>
          let d : FieldDef := { name := id.name, signature := sig, attributes := Writing.assemblyAccess }
          refine (making (Q := fun w' f => w'.store.NameableField w'.writer.image (.fieldDef f) ∧
            w'.writer.fields = w.writer.fields) (.field d ht hn hp.made) fun _ => ?_).bind
              fun _ h => pure h
          exact ⟨.createField d ho hp.readable, hp.spares.fields⟩
  · refine making (.memberRef id.name sig parent) fun hw => ⟨?_, hp.spares.fields⟩
    have hg := Store.Grows.createMemberRef hw.image id.name sig parent
    exact .referred hs (Store.readable_grow hg hp.parentReadable) (Store.callSig_grow hg hp.readable)

theorem resolveMethod {id : MemberIdentity} : Runs Ready w (Writing.resolveMethod c id) fun w' r =>
    w'.store.NameableMethod w'.writer.image r ∧ w'.writer.methods = w.writer.methods := by
  rw [Writing.resolveMethod_eq]
  refine bind_parts c fun {w₂ parent sig} hp => guard fun hs => bind_askable fun _ => ?_
  rw [Bool.not_eq_true', Bool.not_eq_false] at hs
  split
  · next t _ =>
      have ht : w₂.RemembersType (.typeDef t) := hp.parent
      obtain ⟨ho⟩ : w₂.store.Nameable w₂.writer.image (.typeDef t) := hp.ready.types ht
      refine bind_store ?_
      split
      · next f hf =>
          obtain ⟨hmem, heq⟩ := Store.of_findMethod? hf
          have hd := hp.ready.housed.methods ho f hmem
          exact pure ⟨.defined hd ho (hp.legible (Store.methodRows_subset (Store.method_lt hd)) heq),
            hp.spares.methods⟩
      · next hn =>
          let d : MethodDef := { name := id.name, signature := sig, attributes := Writing.assemblyAccess }
          refine (making (Q := fun w' f => w'.store.NameableMethod w'.writer.image (.methodDef f) ∧
            w'.writer.methods = w.writer.methods) (.method d ht hn hp.made) fun _ => ?_).bind
              fun _ h => pure h
          exact ⟨.createMethod d ho hp.readable, hp.spares.methods⟩
  · refine making (.memberRef id.name sig parent) fun hw => ⟨?_, hp.spares.methods⟩
    have hg := Store.Grows.createMemberRef hw.image id.name sig parent
    exact .referred hs (Store.readable_grow hg hp.parentReadable) (Store.callSig_grow hg hp.readable)

/-- A field has the row that is remembered of it from then on. -/
theorem fieldRow {id : MemberIdentity} : Runs Ready w (Writing.fieldRow c id) fun w' r =>
    w'.writer.fields.row? id = some r := by
  refine bind_writer ?_
  split
  · next z hz => exact pure (by rw [Memory.row?, hz]; rfl)
  · next hnone =>
      refine (resolveField c).bind fun _ hr => (modifyWriter (.rememberField id hr.1)).bind ?_
      rintro _ _ - rfl
      exact pure (Memory.row?_append_self (hr.2.symm ▸ hnone))

theorem methodRow {id : MemberIdentity} : Runs Ready w (Writing.methodRow c id) fun w' r =>
    w'.writer.methods.row? id = some r := by
  refine bind_writer ?_
  split
  · next z hz => exact pure (by rw [Memory.row?, hz]; rfl)
  · next hnone =>
      refine (resolveMethod c).bind fun _ hr => (modifyWriter (.rememberMethod id hr.1)).bind ?_
      rintro _ _ - rfl
      exact pure (Memory.row?_append_self (hr.2.symm ▸ hnone))

theorem fieldOfToken (t : Token) :
    Runs Ready w (Writing.fieldOfToken c t) fun w' r => w'.Resolves c .field t r :=
  bind_lookUp fun he => (fieldRow c).imp fun h => ⟨_, he, h⟩

theorem methodOfToken (t : Token) :
    Runs Ready w (Writing.methodOfToken c t) fun w' r => w'.Resolves c .method t r :=
  bind_lookUp fun he => (methodRow c).imp fun h => ⟨_, he, h⟩

theorem definitionOfToken (t : Token) :
    Runs Ready w (Writing.definitionOfToken c t) fun w' m => w'.Resolves c .method t (.methodDef m) :=
  (methodOfToken c t).bind fun _ h => bind_askable fun _ => by
    split
    · exact pure h
    · exact refuse

end Runs

end CilCatalog
