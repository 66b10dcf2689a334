import CilCatalog.Proofs.Live.Changes
import CilCatalog.Proofs.Writing.Acts

/-!
# What a writer's module can name

A writer remembers types of its own module and references that end in an assembly, and members of such types, so that all of them have names.

* `Writer.Calm`, `WriteState.Calm`: the writer asks nothing, and remembers rows only where there is one.
* `WriteState.Settled`, `WriteState.Ready`: the module is as it should be, and everything that is remembered has a name.
* `WriteState.Keeping`: what acts keep, as `WriteState.Act.calm` and `WriteState.Act.settled` do of these.
-/

namespace CilCatalog

open Live

/-- A row that is there lies in itself. -/
theorem mem_rows_of_same {r r' : Row} (h : r ∈ r.rows) (hs : r'.same r = true) : r' ∈ r'.rows := by
  cases r' with
  | null => cases r <;> first | exact absurd h List.not_mem_nil | exact absurd hs Bool.false_ne_true
  | _ => exact List.mem_cons_self

/-! ### What is remembered is there -/

/-- The writer asks nothing, and the rows that it remembers are there, those of types with a name of their own. -/
structure Writer.Calm (v : Writer) : Prop where
  hooks : v.hooks = ⟨none, none⟩
  types : ∀ e ∈ v.types, e.2.row.isNamedType = true
  fields : ∀ e ∈ v.fields, e.2.row.isNull = false
  methods : ∀ e ∈ v.methods, e.2.row.isNull = false

namespace Writer.Calm

variable {v : Writer} {r : Row}

theorem start (i : ImageId) : (Writer.start i ⟨none, none⟩).Calm := ⟨rfl, nofun, nofun, nofun⟩

theorem noteAssembly (h : v.Calm) (name : Bytes) (r : Row) :
    Calm { v with assemblies := v.assemblies ++ [(name, r)] } := { h with }

theorem noteType (h : v.Calm) (hr : r.isNamedType = true) (id : TypeIdentity) :
    Calm { v with types := v.types ++ [(id, ⟨r, .reference⟩)] } :=
  { h with types := List.forall_mem_append.2 ⟨h.types, List.forall_mem_singleton.2 hr⟩ }

theorem noteField (h : v.Calm) (hr : r.isNull = false) (id : MemberIdentity) :
    Calm { v with fields := v.fields ++ [(id, ⟨r, .reference⟩)] } :=
  { h with fields := List.forall_mem_append.2 ⟨h.fields, List.forall_mem_singleton.2 hr⟩ }

theorem noteMethod (h : v.Calm) (hr : r.isNull = false) (id : MemberIdentity) :
    Calm { v with methods := v.methods ++ [(id, ⟨r, .reference⟩)] } :=
  { h with methods := List.forall_mem_append.2 ⟨h.methods, List.forall_mem_singleton.2 hr⟩ }

theorem raiseType (h : v.Calm) (id : TypeIdentity) (level : Level) :
    Calm { v with types := v.types.atLevel id level } :=
  { h with types := Memory.forall_atLevel (p := (·.isNamedType = true)) h.types }

theorem raiseField (h : v.Calm) (id : MemberIdentity) (level : Level) :
    Calm { v with fields := v.fields.atLevel id level } :=
  { h with fields := Memory.forall_atLevel (p := (·.isNull = false)) h.fields }

theorem raiseMethod (h : v.Calm) (id : MemberIdentity) (level : Level) :
    Calm { v with methods := v.methods.atLevel id level } :=
  { h with methods := Memory.forall_atLevel (p := (·.isNull = false)) h.methods }

end Writer.Calm

namespace WriteState

variable {w w' : WriteState} {r : Row}

/-- The writer is calm, and its module is there. -/
structure Calm (w : WriteState) : Prop extends w.writer.Calm where
  image : w.writer.image.index < w.store.images.length

theorem Calm.named (h : w.Calm) (hr : w.RemembersType r) : r.isNamedType = true := by
  obtain ⟨e, he, rfl⟩ := hr
  exact h.types e he

theorem FindsType.isNamedType (h : w.FindsType r) : r.isNamedType = true := by
  cases h <;> rfl

theorem Act.length_images (a : w.Act w') : w'.store.images.length = w.store.images.length := by
  cases a <;> first | rfl | exact List.length_modify ..

theorem Act.calm (a : w.Act w') (h : w.Calm) : w'.Calm where
  hooks := a.hooks.trans h.hooks
  image := by rw [a.writer_image, a.length_images]; exact h.image
  types e he := (a.type_cases ⟨e, he, rfl⟩).elim h.named FindsType.isNamedType
  fields e he := by
    obtain ⟨e', he', hr⟩ | hn := a.field_cases ⟨e, he, rfl⟩
    · exact hr ▸ h.fields e' he'
    · exact hn.isNull
  methods e he := by
    obtain ⟨e', he', hr⟩ | hn := a.method_cases ⟨e, he, rfl⟩
    · exact hr ▸ h.methods e' he'
    · exact hn.isNull

/-! ### What is remembered has a name -/

/-- The module is as it should be, and everything that is remembered has a name. -/
structure Settled (w : WriteState) : Prop where
  housed : w.store.Housed w.writer.image
  tabled : w.store.Tabled w.writer.image
  assemblies : ∀ {r}, w.RemembersAssembly r → r ∈ w.home.assemblyRefs
  types : ∀ {r}, w.RemembersType r → w.store.Nameable w.writer.image r
  fields : ∀ {r}, w.RemembersField r → w.store.NameableField w.writer.image r
  methods : ∀ {r}, w.RemembersMethod r → w.store.NameableMethod w.writer.image r

/-- A scope is in the tables, and a type reference that has it ends in an assembly. -/
theorem Settled.scope (h : w.Settled) (hr : w.Scope r) :
    (r ∈ w.home.assemblyRefs ∨ r ∈ w.home.typeRefs) ∧ r ∈ r.rows ∧ r.isReference = true ∧
      ∀ n ns name, ∃ k a, (Row.typeRef n ns name r).definitionAssembly = .assemblyRef k a := by
  cases hr with
  | assembly hr =>
      have hm := h.assemblies hr
      obtain ⟨k, a, rfl⟩ := h.tabled.assemblies r hm
      exact ⟨.inl hm, List.mem_cons_self, rfl, fun _ _ _ => ⟨k, a, rfl⟩⟩
  | type hr =>
      cases h.types hr with
      | referred hm ha => exact ⟨.inr hm, List.mem_cons_self, rfl, fun _ _ _ => ⟨_, _, ha⟩⟩

/-- What is found for a type has a name. -/
theorem Settled.finds (h : w.Settled) (hr : w.FindsType r) : w.store.Nameable w.writer.image r := by
  cases hr with
  | global =>
      obtain ⟨t, ts, hts⟩ := List.exists_cons_of_ne_nil h.housed.global
      have hglobal : w.store.globalType w.writer.image = t := by
        rw [Store.globalType, hts]
        rfl
      rw [hglobal]
      exact .defined (h.housed.tops t (hts ▸ List.mem_cons_self))
  | top ht => exact .defined (h.housed.tops _ ht)
  | nested ho ht =>
      cases h.types ho with
      | defined ho => exact .defined (h.housed.nested ho _ ht)
  | made _ ht _ => exact .defined ht
  | @referred n ns name scope scope' hs hr hsame =>
      obtain ⟨hm, hself, href, ha⟩ := h.scope hs
      have hin : scope ∈ w.store.references w.writer.image :=
        Store.mem_references.2 ⟨scope, hm, hself⟩
      have hin' : scope' ∈ w.store.references w.writer.image :=
        Store.mem_references.2 ⟨_, .inr hr, List.mem_cons_of_mem _ (mem_rows_of_same hself hsame)⟩
      obtain rfl := (h.tabled.references scope' hin').apart
        ((Row.isReference_of_same hsame).trans href) scope hin hsame
      obtain ⟨k, a, ha⟩ := ha n ns name
      exact .referred hr ha

/-! ### Acts -/

theorem Act.grows (a : w.Act w') (hi : w.writer.image.index < w.store.images.length) :
    Store.Grows w.writer.image w.store w'.store := by
  cases a with
  | assemblyRef name => exact .createAssemblyRef hi (.ofText name)
  | moduleRef name => exact .createModuleRef hi name
  | typeRef ns name => exact .addTypeRef hi ns name _
  | memberRef name sig => exact .createMemberRef hi name sig _
  | typeSpec sig => exact .addRow (.typeSpec · sig)
  | @methodSpec method sig => exact .addRow (.methodSpec · method sig)
  | topType ns name => exact .createType hi ns name
  | nestedType name => exact .createNestedType [] name _
  | field d => exact .createField _ d
  | method d => exact .createMethod _ d
  | orderTypes | orderFields | orderMethods => exact .modifyType fun _ => rfl
  | defineType _ hf => exact .modifyType hf.head
  | defineField _ hf => exact .modifyField hf
  | defineMethod _ hf => exact .modifyMethod hf
  | _ => exact .refl _ _

/-- The types of the module stay its own, and its members those of its types. -/
theorem Act.housed (a : w.Act w') (h : w.Settled) : w'.store.Housed w.writer.image := by
  have hh := h.housed
  cases a with
  | assemblyRef name =>
      exact (hh.addRow (.assemblyRef · (.ofText name))).modifyImage fun _ => rfl
  | moduleRef name => exact (hh.addRow (.moduleRef · name)).modifyImage fun _ => rfl
  | @typeRef ns name scope =>
      exact (hh.addRow (.typeRef · ns name scope)).modifyImage fun _ => rfl
  | memberRef name sig parent =>
      exact (hh.addRow (.memberRef · name sig parent)).modifyImage fun _ => rfl
  | typeSpec | methodSpec => exact hh.congr rfl rfl rfl (.of_eq rfl rfl rfl)
  | topType ns name => exact hh.createType ns name
  | nestedType name => exact hh.createNestedType [] name _
  | field d => exact hh.createField _ d
  | method d => exact hh.createMethod _ d
  | defineType _ hf =>
      exact hh.modifyType hf.head (fun n hn => .inl (hf.nestedTypes _ ▸ hn))
        (fun k hk => .inl (hf.fields _ ▸ hk)) fun k hk => .inl (hf.methods _ ▸ hk)
  | orderTypes ht hn =>
      refine hh.modifyType (fun _ => rfl) (fun n hm => ?_) (fun _ => .inl) fun _ => .inl
      rcases List.mem_append.1 hm with hm | hm
      · cases h.types (hn n hm).1 with
        | defined ho => exact .inr ho
      · exact .inl (List.mem_of_mem_filter hm)
  | orderFields ht hf =>
      refine hh.modifyType (fun _ => rfl) (fun _ => .inl) (fun k hm => ?_) fun _ => .inl
      rcases List.mem_append.1 hm with hm | hm
      · exact .inr (hf k hm).2
      · exact .inl (List.mem_of_mem_filter hm)
  | orderMethods ht hf =>
      refine hh.modifyType (fun _ => rfl) (fun _ => .inl) (fun _ => .inl) fun k hm => ?_
      rcases List.mem_append.1 hm with hm | hm
      · exact .inr (hf k hm).2
      · exact .inl (List.mem_of_mem_filter hm)
  | defineField _ hf => exact hh.congr rfl rfl rfl (.modifyField hf)
  | defineMethod _ hf => exact hh.congr rfl rfl rfl (.modifyMethod hf)
  | _ => exact hh

/-- The tables and signatures go on telling their rows apart. -/
theorem Act.tabled (a : w.Act w') (h : w.Settled) : w'.store.Tabled w.writer.image := by
  have ht := h.tabled
  have hi := h.housed.image
  cases a with
  | assemblyRef name => exact ht.createAssemblyRef hi (.ofText name)
  | typeRef ns name hs => exact ht.addTypeRef hi ns name (h.scope hs).1
  | moduleRef name =>
      exact (ht.addRow (.moduleRef · name)).modifyImage hi (fun _ => rfl) fun _ => rfl
  | memberRef name sig parent =>
      exact (ht.addRow (.memberRef · name sig parent)).modifyImage hi (fun _ => rfl) fun _ => rfl
  | topType ns name =>
      have hnew : (w.store.addTypeDef w.writer.image ns name).2.Tabled w.writer.image :=
        ht.congr rfl rfl (Nat.le_refl _) fun _ => .inl
      exact hnew.modifyImage hi (fun _ => rfl) fun _ => rfl
  | typeSpec | methodSpec => exact ht.congr rfl rfl (Nat.le_succ _) fun _ => .inl
  | field d _ _ hd =>
      exact ht.createField _ d fun x hx =>
        Store.placed_of_madeOf ht id (d.signature.mem_rows_of_madeOf hd hx)
  | method d _ _ hd =>
      exact ht.createMethod _ d fun x hx =>
        Store.placed_of_madeOf ht id (d.signature.mem_rows_of_madeOf hd hx)
  | defineField _ hf => exact ht.modifyField _ hf
  | defineMethod _ hf => exact ht.modifyMethod _ hf
  | _ => exact ht.congr rfl rfl (Nat.le_refl _) fun _ => .inl

/-- An act leaves the module as it should be, and what is remembered has a name. -/
theorem Act.settled (a : w.Act w') (h : w.Settled) : w'.Settled := by
  have hg := a.grows h.housed.image
  have hi := a.writer_image
  refine ⟨hi ▸ a.housed h, hi ▸ a.tabled h, fun hr => ?_, fun hr => ?_, fun hr => ?_, fun hr => ?_⟩
  · rw [home, hi]
    exact hg.assemblyRefs ((a.assembly_cases hr).elim h.assemblies id)
  · rw [hi]
    exact ((a.type_cases hr).elim h.types h.finds).grow hg
  · rw [hi]
    exact ((a.field_cases hr).elim h.fields id).grow hg
  · rw [hi]
    exact ((a.method_cases hr).elim h.methods id).grow hg

/-- The writer asks nothing, and its module is as it should be. -/
structure Ready (w : WriteState) : Prop extends w.Settled where
  hooks : w.writer.hooks = ⟨none, none⟩

theorem Ready.image (h : w.Ready) : w.writer.image.index < w.store.images.length := h.housed.image

theorem Ready.calm (h : w.Ready) : w.Calm where
  hooks := h.hooks
  image := h.image
  types e he := (h.types ⟨e, he, rfl⟩).isNamedType
  fields e he := (h.fields ⟨e, he, rfl⟩).isNull
  methods e he := (h.methods ⟨e, he, rfl⟩).isNull

/-! ### What acts keep -/

/-- States that acts lead on from to states of their kind, and in which the writer asks nothing. -/
class Keeping (I : WriteState → Prop) : Prop where
  act : ∀ {w w' : WriteState}, w.Act w' → I w → I w'
  calm : ∀ {w : WriteState}, I w → w.Calm

instance : Keeping Calm := ⟨Act.calm, id⟩

instance : Keeping Ready := ⟨fun a h => ⟨a.settled h.toSettled, a.hooks.trans h.hooks⟩, Ready.calm⟩

theorem Leads.keeps {I : WriteState → Prop} [Keeping I] (hl : w.Leads w') (h : I w) : I w' := by
  induction hl with
  | refl => exact h
  | act _ a ih => exact Keeping.act a ih

theorem Leads.ready (hl : w.Leads w') (h : w.Ready) : w'.Ready := hl.keeps h

end WriteState

end CilCatalog
