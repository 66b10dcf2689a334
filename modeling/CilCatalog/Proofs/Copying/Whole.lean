import CilCatalog.Proofs.Copying.Define

/-!
# Writing types
-/

namespace CilCatalog

open Live

/-- A type definition without its children. -/
def Live.TypeDef.bare (d : TypeDef) : TypeDef :=
  { d with nestedTypes := [], fields := [], methods := [], properties := [], events := [] }

theorem TypeKept.bare {σ σ' : Store} {t : TypeId} (h : TypeKept σ σ' t) :
    (σ'.typeDef t).bare = (σ.typeDef t).bare := by
  obtain ⟨ns, fs, ms, heq, -⟩ := h
  rw [heq]
  rfl

theorem typeData_eq (s : Store) (d : TypeDef) :
    Reading.typeData s d = do
      let baseType ← Reading.optionalType s d.baseType
      let interfaces ← Reading.typeTrees s d.interfaces >>= fun ts => pure (Reading.nonempty ts)
      let genericParameters ← Reading.genericParameters s d.genericParams
      let customAttributes ← Reading.customAttributes s d.customAttributes
      return {
        attributes := d.attributes.toInt32
        baseType, interfaces, genericParameters, customAttributes
        layout := d.layout.map fun l => ⟨Int32.ofNat l.packingSize.toNat, l.classSize.toInt32⟩
        nestedTypes := none, fields := none, methods := none, properties := none, events := none } := by
  unfold Reading.typeData Reading.optionalType
  simp only [bind_assoc, pure_bind]
  split <;> rfl

/-- The data of a type is read from its definition without children. -/
theorem typeData_bare_eq {d d' : TypeDef} (h : d'.bare = d.bare) (s : Store) :
    Reading.typeData s d' = Reading.typeData s d :=
  show Reading.typeData s d'.bare = Reading.typeData s d.bare by rw [h]

/-- The part of writing a type that is about its base type. -/
def Writing.defineBase (c : Catalog) (t : TypeId) : Option SigTree → Writing Unit
  | none      => pure ()
  | some tree => do
      let row ← Writing.rowOfTree c tree
      Writing.modifyStore (·.modifyType t fun l => { l with baseType := row })

theorem defineType_eq (c : Catalog) (t : TypeId) (d : TypeData) :
    Writing.defineType c t d = (do
      Writing.modifyStore (·.modifyType t fun l =>
        { l with attributes := d.attributes.toUInt32, baseType := .null })
      Writing.defineBase c t d.baseType
      let interfaces ← Writing.rowsOfTrees c d.interfaces
      let genericParams ← Writing.genericParams c d.genericParameters
      let customAttributes ← Writing.customAttributes c d.customAttributes
      let layout := d.layout.map fun l =>
        (⟨Writing.low16 l.packingSize, l.classSize.toUInt32⟩ : Live.ClassLayout)
      Writing.modifyStore (·.modifyType t fun l =>
        { l with interfaces, genericParams, customAttributes, layout })) := by
  unfold Writing.defineType
  cases d.baseType with
  | none => rfl
  | some tree =>
      dsimp only [Writing.defineBase]
      simp only [bind_assoc]

/-- The layout of a type comes back as it is. -/
theorem layout_written (l : Option Live.ClassLayout) :
    ((l.map fun l => (⟨Int32.ofNat l.packingSize.toNat, l.classSize.toInt32⟩ : ClassLayout)).map fun l =>
      (⟨Writing.low16 l.packingSize, l.classSize.toUInt32⟩ : Live.ClassLayout)) = l := by
  cases l <;> simp

/-- The part of writing a type that is about the types nested in it. -/
def Writing.nestTypes (c : Catalog) (depth : Nat) (t : TypeId) (ks : List Token) : Writing Unit := do
  let rows ← ks.mapM fun k => do
    Writing.typeWithin c depth (← Writing.lookUp c.types k) .withChildren
  let ns ← rows.mapM (Writing.nestedIn (← Writing.store) t)
  Writing.modifyStore (·.modifyType t fun l =>
    { l with nestedTypes := Writing.reordered ns l.nestedTypes })

/-- The state with another level of a type. -/
def WriteState.atLevel (w : WriteState) (id : TypeIdentity) (level : Level) : WriteState :=
  { w with writer := { w.writer with types := w.writer.types.atLevel id level } }

/-- Writing the definition of a type that has one already does nothing. -/
def DefinesOnce (c : Catalog) (t : TypeId) (id : TypeIdentity) (d : TypeData) (w w' : WriteState) :
    Prop :=
  (w.writer.types.level id < .definition ∧
    ∃ v, Gives (Writing.defineType c t d) w () v ∧ w' = v.atLevel id .definition) ∨
  (¬ w.writer.types.level id < .definition ∧ w' = w)

/-- What it comes to that a type is given its children. -/
def GivesChildren (c : Catalog) (depth : Nat) (n : TypeId) (id : TypeIdentity) (d : TypeData)
    (w w' : WriteState) : Prop :=
  ∃ w₁ w₂, Gives (Writing.forPresent d.nestedTypes (Writing.nestTypes c depth n)) w () w₁ ∧
    Gives (Writing.defineMembers c n d) w₁ () w₂ ∧ w' = w₂.atLevel id .withChildren

theorem gives_checkLevel {highest asked : Level} {w w' : WriteState} {u : Unit}
    (h : Gives (Writing.checkLevel highest asked) w u w') : w' = w := by
  rw [Writing.checkLevel] at h
  split at h
  · exact absurd h gives_refuseWrite
  · exact (gives_pure.1 h).2

/-- What writing a type comes to: it has been written that far, or it has a definition, which is written. -/
theorem Writing.gives_typeWithin {c : Catalog} {depth : Nat} {e : TypeEntity} {level : Level}
    {w w' : WriteState} {row : Row} (h : Gives (Writing.typeWithin c (depth + 1) e level) w row w') :
    ∃ w₁, Gives (Writing.typeRow e.identity) w row w₁ ∧
      (level ≤ w₁.writer.types.level e.identity ∧ w' = w₁ ∨
        ¬ level ≤ w₁.writer.types.level e.identity ∧ ∃ d n w₂, e.data? = some d ∧ row = .typeDef n ∧
          DefinesOnce c n e.identity d w₁ w₂ ∧
          (level ≠ .withChildren ∧ w' = w₂ ∨
            level = .withChildren ∧ GivesChildren c depth n e.identity d w₂ w')) := by
  rw [Writing.typeWithin_eq] at h
  obtain ⟨_, _, hcheck, hafter⟩ := gives_bind.1 h
  obtain rfl := gives_checkLevel hcheck
  obtain ⟨row₁, w₁, hrow, hrest⟩ := gives_bind.1 hafter
  rw [gives_bind_writer] at hrest
  by_cases hle : level ≤ w₁.writer.types.level e.identity
  · rw [if_pos hle] at hrest
    obtain ⟨rfl, rfl⟩ := gives_pure.1 hrest
    exact ⟨_, hrow, .inl ⟨hle, rfl⟩⟩
  rw [if_neg hle] at hrest
  rcases hd : e.data? with _ | d <;> rw [hd] at hrest
  · exact absurd hrest gives_refuseWrite
  obtain ⟨-, hrest⟩ := gives_bind_askable.1 hrest
  cases row₁ with
  | typeDef n =>
      -- what follows the definition does not depend on whether there was one already
      have children : ∀ {w₂}, Gives (do
          if level = .withChildren then
            Writing.forPresent d.nestedTypes fun ts => do
              let rows ← ts.mapM fun n => do
                Writing.typeWithin c depth (← Writing.lookUp c.types n) level
              let ns ← rows.mapM (Writing.nestedIn (← Writing.store) n)
              Writing.modifyStore (·.modifyType n fun l =>
                { l with nestedTypes := Writing.reordered ns l.nestedTypes })
            Writing.defineMembers c n d
            Writing.modifyWriter fun w =>
              { w with types := w.types.atLevel e.identity .withChildren }
          return Row.typeDef n) w₂ row w' →
          row = .typeDef n ∧ (level ≠ .withChildren ∧ w' = w₂ ∨
            level = .withChildren ∧ GivesChildren c depth n e.identity d w₂ w') := by
        intro w₂ h
        split at h
        · next hlevel =>
            subst hlevel
            obtain ⟨_, w₃, hnested, h⟩ := gives_bind.1 h
            obtain ⟨_, w₄, hmembers, h⟩ := gives_bind.1 h
            rw [gives_bind_modifyWriter] at h
            obtain ⟨rfl, rfl⟩ := gives_pure.1 h
            exact ⟨rfl, .inr ⟨rfl, w₃, w₄, hnested, hmembers, rfl⟩⟩
        · next hlevel =>
            obtain ⟨rfl, rfl⟩ := gives_pure.1 h
            exact ⟨rfl, .inl ⟨hlevel, rfl⟩⟩
      dsimp only at hrest
      split at hrest
      · next hlt =>
          obtain ⟨_, v, hv, hrest⟩ := gives_bind.1 hrest
          rw [gives_bind_modifyWriter] at hrest
          obtain ⟨rfl, hlast⟩ := children hrest
          exact ⟨w₁, hrow, .inr ⟨hle, d, n, _, rfl, rfl, .inl ⟨hlt, v, hv, rfl⟩, hlast⟩⟩
      · next hlt =>
          obtain ⟨rfl, hlast⟩ := children hrest
          exact ⟨w₁, hrow, .inr ⟨hle, d, n, w₁, rfl, rfl, .inr ⟨hlt, rfl⟩, hlast⟩⟩
  | _ =>
      rw [gives_bind_store, gives_bind_writer] at hrest
      exact absurd hrest gives_refuseWrite

/-- What writing a type definition with its children comes to. -/
theorem gives_typeDefinition {c : Catalog} {depth : Nat} {id : TypeIdentity} {d : TypeData}
    {w w' : WriteState} {row : Row}
    (h : Gives (Writing.typeWithin c (depth + 1) (.definition id d) .withChildren) w row w') :
    ∃ w₁, Gives (Writing.typeRow id) w row w₁ ∧
      (.withChildren ≤ w₁.writer.types.level id ∧ w' = w₁ ∨
        ¬ .withChildren ≤ w₁.writer.types.level id ∧ ∃ n w₂ w₃ w₄, row = .typeDef n ∧
          DefinesOnce c n id d w₁ w₂ ∧
          Gives (Writing.forPresent d.nestedTypes (Writing.nestTypes c depth n)) w₂ () w₃ ∧
          Gives (Writing.defineMembers c n d) w₃ () w₄ ∧ w' = w₄.atLevel id .withChildren) := by
  obtain ⟨w₁, hrow, hdone | ⟨hle, _, n, w₂, ⟨⟩, rfl, honce, ⟨hne, -⟩ | ⟨-, hchildren⟩⟩⟩ :=
    Writing.gives_typeWithin h
  · exact ⟨w₁, hrow, .inl hdone⟩
  · exact absurd rfl hne
  · obtain ⟨w₃, w₄, hnested, hmembers, rfl⟩ := hchildren
    exact ⟨w₁, hrow, .inr ⟨hle, n, w₂, w₃, w₄, rfl, honce, hnested, hmembers, rfl⟩⟩

namespace Copy

variable {C : Copy} {w w₁ w' : WriteState} {t n : TypeId} {r : Written} {u : Unit}

variable (C) in
/-- A type whose children are not copied yet is being written. -/
structure TypeStage (w : WriteState) (t : TypeId) (r : Written) (n : TypeId) (w' : WriteState) :
    Prop where
  faithful : C.Faithful .null w'
  keeps : w.Keeps w'
  types : ∀ {id e}, Normal id → w.writer.types.find? id = some e →
    w'.writer.types.find? id = some e
  found : w'.writer.types.find? (Reading.definitionIdentity C.source.store t) = some r
  row : r.row = .typeDef n
  level : ¬ .withChildren ≤ r.level

namespace TypeStage

variable {F : TypeDef → TypeDef}

theorem typeIn (h : C.TypeStage w t r n w') : w'.store.TypeIn C.base n :=
  (h.faithful.remembered.types (definitionIdentity_normal _ t) h.found).inside h.row

theorem start (hw : C.Faithful .null w)
    (hr : w.writer.types.find? (Reading.definitionIdentity C.source.store t) = some r)
    (hrow : r.row = .typeDef n) (hl : ¬ .withChildren ≤ r.level) : C.TypeStage w t r n w :=
  ⟨hw, .refl w, fun _ h => h, hr, hrow, hl⟩

theorem step (h : C.TypeStage w t r n w₁) (hw' : C.Faithful .null w') (hs : w₁.Step w') :
    C.TypeStage w t r n w' :=
  ⟨hw', h.keeps.trans hs.keeps, fun hid he => hs.types hid (h.types hid he),
    hs.types (definitionIdentity_normal _ t) h.found, h.row, h.level⟩

theorem alter (h : C.TypeStage w t r n w₁)
    (hg : Gives (Writing.modifyStore (·.modifyType n F)) w₁ u w')
    (ha : Alters w₁ (w₁.store.modifyType n F))
    (hd : .definition ≤ r.level → ∀ d, (F d).bare = d.bare) :
    C.TypeStage w t r n w' ∧ w₁.Keeps w' ∧ w'.store.typeDef n = F (w₁.store.typeDef n) := by
  obtain ⟨hw', hkeeps, hwriter, heq⟩ := h.faithful.alterType h.found h.row h.level hg ha
    fun hl => typeData_bare_eq (hd hl _)
  refine ⟨⟨hw', h.keeps.trans hkeeps, fun hid he => ?_, ?_, h.row, h.level⟩, hkeeps, heq⟩
  · rw [hwriter]
    exact h.types hid he
  · rw [hwriter]
    exact h.found

end TypeStage

/-- Where the lists of a type stay, only what it says is changed. -/
theorem alters_sameLists {F : TypeDef → TypeDef} (hn : n.index < w.store.typeDefs.length)
    (hF : ∀ d, (F d).head = d.head) (hnested : ∀ d, (F d).nestedTypes = d.nestedTypes)
    (hfields : ∀ d, (F d).fields = d.fields) (hmethods : ∀ d, (F d).methods = d.methods) :
    Alters w (w.store.modifyType n F) :=
  alters_modifyType hn hF (fun _ h => .inl (hnested _ ▸ h)) (fun _ h => .inl (hfields _ ▸ h))
    fun _ h => .inl (hmethods _ ▸ h)

/-! ### Definitions of types -/

/-- A type that is given its base type is read like the original in that. -/
theorem defineBase_written {r₀ : Row} {b : Option SigTree} {l : TypeDef}
    (hr : C.source.Has r₀.rows) (hq : Read C.source C.reader (Reading.optionalType C.source.store r₀) b)
    (hs : C.TypeStage w t r n w₁) (hl : ¬ .definition ≤ r.level)
    (hc : (w₁.store.typeDef n).bare = l) (hnull : l.baseType = .null)
    (h : Gives (Writing.defineBase C.catalog n b) w₁ u w') :
    ∃ row, C.TypeStage w t r n w' ∧ w₁.store.Extends w'.store ∧
      (w'.store.typeDef n).bare = { l with baseType := row } ∧
      C.Echo w'.store (Reading.optionalType C.source.store r₀) (Reading.optionalType · row) := by
  cases b with
  | none =>
      obtain ⟨-, rfl⟩ := gives_pure.1 h
      have base := optionalType_writes (r := .null) hr hq hs.faithful (gives_pure.2 ⟨rfl, rfl⟩)
      refine ⟨.null, hs, .refl _, ?_, base.echo⟩
      rw [hc, ← hnull]
  | some tree =>
      obtain ⟨row, w₂, hrow, h⟩ := gives_bind.1 h
      have base := optionalType_writes hr hq hs.faithful hrow
      have hs₂ := hs.step base.faithful base.step.step
      obtain ⟨hs', hkeeps, heq⟩ := hs₂.alter h
        (alters_sameLists hs₂.typeIn.2 (fun _ => rfl) (fun _ => rfl) (fun _ => rfl) fun _ => rfl)
        fun h => absurd h hl
      refine ⟨row, hs', base.step.store.trans hkeeps.store, ?_, base.echo.extends hkeeps.store⟩
      rw [heq, ← hc, ← (base.step.kept n hs.typeIn.2).bare]
      rfl

/-- A type that is given a definition is read as what the definition has been read from. -/
theorem defineType_written {d : TypeData} (hs : C.TypeStage w t r n w)
    (hl : ¬ .definition ≤ r.level) (ht : C.source.store.Owns C.source.image t)
    (hd : Read C.source C.reader (Reading.typeData C.source.store (C.source.store.typeDef t)) d)
    (h : Gives (Writing.defineType C.catalog n d) w u w') :
    C.TypeStage w t r n w' ∧
      C.Echo w'.store (Reading.typeData C.source.store (C.source.store.typeDef t))
        (Reading.typeData · (w'.store.typeDef n)) := by
  simp only [typeData_eq] at hd ⊢
  have trees : Steady C.source (Reading.typeTrees C.source.store (C.source.store.typeDef t).interfaces >>=
      fun ts => pure (Reading.nonempty ts)) := (Steady.typeTrees _ _).bind fun _ => .pure _
  -- what was read of the type, part by part
  obtain ⟨b, hb, hd⟩ := hd.of_bind (.optionalType _ _) fun _ => trees.bind fun _ =>
    (Steady.genericParameters _ _).bind fun _ => (Steady.customAttributes _ _).bind fun _ => .pure _
  obtain ⟨_, his, hd⟩ := hd.of_bind trees fun _ =>
    (Steady.genericParameters _ _).bind fun _ => (Steady.customAttributes _ _).bind fun _ => .pure _
  obtain ⟨is, hts, rfl⟩ := his.of_bind_pure (.typeTrees _ _)
  obtain ⟨gs, hgs, hd⟩ := hd.of_bind (.genericParameters _ _) fun _ =>
    (Steady.customAttributes _ _).bind fun _ => .pure _
  obtain ⟨as, has, rfl⟩ := hd.of_bind_pure (.customAttributes _ _)
  have hh := Source.has_type ht.2
  obtain ⟨hh, -⟩ := Source.has_append.1 hh
  obtain ⟨hh, -⟩ := Source.has_append.1 hh
  obtain ⟨hh, hasAttributes⟩ := Source.has_append.1 hh
  obtain ⟨hh, hasGenerics⟩ := Source.has_append.1 hh
  obtain ⟨hasBase, hasInterfaces⟩ := Source.has_append.1 hh
  -- what is written of it, in the same order
  rw [defineType_eq] at h
  obtain ⟨_, w₁, h₁, h⟩ := gives_bind.1 h
  obtain ⟨_, w₂, h₂, h⟩ := gives_bind.1 h
  obtain ⟨is', w₃, h₃, h⟩ := gives_bind.1 h
  obtain ⟨gs', w₄, h₄, h⟩ := gives_bind.1 h
  obtain ⟨as', w₅, h₅, h⟩ := gives_bind.1 h
  obtain ⟨s₁, -, heq₁⟩ := hs.alter h₁
    (alters_sameLists hs.typeIn.2 (fun _ => rfl) (fun _ => rfl) (fun _ => rfl) fun _ => rfl)
    fun h => absurd h hl
  obtain ⟨row, s₂, -, heq₂, base⟩ := defineBase_written hasBase hb s₁ hl rfl (by rw [heq₁]; rfl) h₂
  have interfaces := rowsOfTrees_writes hasInterfaces hts s₂.faithful h₃
  have generics := genericParams_writes hasGenerics hgs interfaces.faithful h₄
  have attributes := customAttributes_writes hasAttributes has generics.faithful h₅
  have step := interfaces.step.trans (generics.step.trans attributes.step)
  have s₅ := s₂.step attributes.faithful step.step
  obtain ⟨s₆, keeps, heq₆⟩ := s₅.alter h
    (alters_sameLists s₅.typeIn.2 (fun _ => rfl) (fun _ => rfl) (fun _ => rfl) fun _ => rfl)
    fun h => absurd h hl
  -- what is written in between leaves the attributes and the base type alone
  have hbare := (step.kept n s₂.typeIn.2).bare.trans heq₂
  have hattributes : (w₅.store.typeDef n).attributes =
      (C.source.store.typeDef t).attributes.toInt32.toUInt32 := by
    refine (congrArg TypeDef.attributes hbare).trans ?_
    rw [heq₁]
    rfl
  have hbase : (w₅.store.typeDef n).baseType = row := congrArg TypeDef.baseType hbare
  refine ⟨s₆, ?_⟩
  rw [heq₆]
  dsimp only
  rw [hattributes, hbase, UInt32.toUInt32_toInt32, layout_written]
  exact (base.extends (step.store.trans keeps.store)).bind fun _ =>
    (interfaces.echo.extends ((generics.step.trans attributes.step).store.trans keeps.store)).bind
      fun _ => (generics.echo.extends (attributes.step.store.trans keeps.store)).bind fun _ =>
        (attributes.echo.extends keeps.store).bind fun _ => .pure _

/-! ### Members of types -/

section Members

variable {row : Row} {rows : List Row} {ks : List Token}

/-- Fields that are on record as defined are remembered so when they have been written. -/
theorem fields_written {fs : List FieldId}
    (hks : List.Forall₂ (FieldDone C.source C.reader) fs ks) (hw : C.Faithful .null w)
    (h : Gives (Writing.fields C.catalog ks .definition) w rows w') :
    C.Faithful .null w' ∧ w.Step w' ∧
      List.Forall₂ (fun f row => ∀ g, row = .fieldDef g → C.FieldWritten w' f g) fs rows := by
  induction hks generalizing w rows with
  | nil =>
      obtain ⟨rfl, rfl⟩ := gives_mapM_nil.1 h
      exact ⟨hw, .refl _, .nil⟩
  | cons hk _ ih =>
      obtain ⟨row, w₁, rows', hfirst, hrows, rfl⟩ := gives_mapM_cons.1 h
      obtain ⟨e, he, hrow⟩ := gives_bind_lookUp.1 hfirst
      obtain ⟨id, r, hid, hr, rfl, -⟩ := hk
      obtain ⟨e', he', rfl, -⟩ := C.sound.fields.found id r trivial hr
      cases he.symm.trans he'
      obtain ⟨hw₁, hst, r', hr', rfl, hl⟩ := field_written he hid hw hrow
      obtain ⟨hw', hst', hall⟩ := ih hw₁ hrows
      refine ⟨hw', hst.trans hst', .cons (fun g hg => ?_) hall⟩
      exact FieldWritten.keeps ⟨_, r', hid, hr', hg, hl⟩ hst'.keeps

/-- Methods that are on record as defined are remembered so when they have been written. -/
theorem methods_written {fs : List MethodId}
    (hks : List.Forall₂ (MethodDone C.source C.reader) fs ks) (hw : C.Faithful .null w)
    (h : Gives (Writing.methods C.catalog ks .definition) w rows w') :
    C.Faithful .null w' ∧ w.Step w' ∧
      List.Forall₂ (fun f row => ∀ g, row = .methodDef g → C.MethodWritten w' f g) fs rows := by
  induction hks generalizing w rows with
  | nil =>
      obtain ⟨rfl, rfl⟩ := gives_mapM_nil.1 h
      exact ⟨hw, .refl _, .nil⟩
  | cons hk _ ih =>
      obtain ⟨row, w₁, rows', hfirst, hrows, rfl⟩ := gives_mapM_cons.1 h
      obtain ⟨e, he, hrow⟩ := gives_bind_lookUp.1 hfirst
      obtain ⟨id, r, hid, hr, rfl, -⟩ := hk
      obtain ⟨e', he', rfl, -⟩ := C.sound.methods.found id r trivial hr
      cases he.symm.trans he'
      obtain ⟨hw₁, hst, r', hr', rfl, hl⟩ := method_written he hid hw hrow
      obtain ⟨hw', hst', hall⟩ := ih hw₁ hrows
      refine ⟨hw', hst.trans hst', .cons (fun g hg => ?_) hall⟩
      exact MethodWritten.keeps ⟨_, r', hid, hr', hg, hl⟩ hst'.keeps

/-- The fields of a type are put in place. -/
theorem defineFields_written (hs : C.TypeStage w t r n w₁)
    (hks : List.Forall₂ (FieldDone C.source C.reader) (C.source.store.typeDef t).fields ks)
    (h : Gives (do
      let rows ← Writing.fields C.catalog ks .definition
      let fs ← rows.mapM (Writing.fieldIn (← Writing.store) n)
      Writing.modifyStore (·.modifyType n fun l => { l with fields := Writing.reordered fs l.fields }))
      w₁ u w') :
    C.TypeStage w t r n w' ∧ C.FieldsCopied w' t n ∧ ∃ w₂ fs, w₁.Step w₂ ∧ w₂.Keeps w' ∧
      w'.store.typeDef n = { w₂.store.typeDef n with fields := fs } := by
  obtain ⟨rows, w₂, hrows, hrest⟩ := gives_bind.1 h
  rw [gives_bind_store] at hrest
  obtain ⟨fs, w₃, hfs, hlast⟩ := gives_bind.1 hrest
  obtain ⟨hw₂, hst, hwritten⟩ := fields_written hks hs.faithful hrows
  obtain ⟨rfl, hin⟩ := gives_mapM_still gives_fieldIn hfs
  have hcopied : List.Forall₂ (fun f g => C.FieldWritten w₃ f g ∧
      (w₃.store.fieldDef g).declaring = some n) (C.source.store.typeDef t).fields fs :=
    forall₂_comp hwritten hin fun hf hg => ⟨hf _ hg.1, hg.2⟩
  have hmem : ∀ g ∈ Writing.reordered fs (w₃.store.typeDef n).fields,
      g ∈ (w₃.store.typeDef n).fields ∨
        FieldListed w₃ g ∧ (w₃.store.fieldDef g).declaring = some n := by
    intro g hg
    rcases List.mem_append.1 hg with hg | hg
    · obtain ⟨f, -, ⟨id, e, -, he, hrow, -⟩, hd⟩ := forall₂_mem_right hcopied hg
      exact .inr ⟨⟨id, e, he, hrow⟩, hd⟩
    · exact .inl (List.mem_of_mem_filter hg)
  have hs₂ := hs.step hw₂ hst
  obtain ⟨hs', hkeeps, heq⟩ := hs₂.alter hlast (alters_modifyType hs₂.typeIn.2 (fun _ => rfl)
    (fun _ => .inl) hmem fun _ => .inl) fun _ _ => rfl
  refine ⟨hs', ?_, w₃, _, hst, hkeeps, heq⟩
  rw [FieldsCopied, heq]
  exact startsWith_reordered (hcopied.imp fun _ _ hf => hf.1.keeps hkeeps) _

/-- The methods of a type are put in place. -/
theorem defineMethods_written (hs : C.TypeStage w t r n w₁)
    (hks : List.Forall₂ (MethodDone C.source C.reader) (C.source.store.typeDef t).methods ks)
    (h : Gives (do
      let rows ← Writing.methods C.catalog ks .definition
      let ms ← rows.mapM (Writing.methodIn (← Writing.store) n)
      Writing.modifyStore (·.modifyType n fun l => { l with methods := Writing.reordered ms l.methods }))
      w₁ u w') :
    C.TypeStage w t r n w' ∧ C.MethodsCopied w' t n ∧ ∃ w₂ ms, w₁.Step w₂ ∧ w₂.Keeps w' ∧
      w'.store.typeDef n = { w₂.store.typeDef n with methods := ms } := by
  obtain ⟨rows, w₂, hrows, hrest⟩ := gives_bind.1 h
  rw [gives_bind_store] at hrest
  obtain ⟨ms, w₃, hms, hlast⟩ := gives_bind.1 hrest
  obtain ⟨hw₂, hst, hwritten⟩ := methods_written hks hs.faithful hrows
  obtain ⟨rfl, hin⟩ := gives_mapM_still gives_methodIn hms
  have hcopied : List.Forall₂ (fun f g => C.MethodWritten w₃ f g ∧
      (w₃.store.methodDef g).declaring = some n) (C.source.store.typeDef t).methods ms :=
    forall₂_comp hwritten hin fun hf hg => ⟨hf _ hg.1, hg.2⟩
  have hmem : ∀ g ∈ Writing.reordered ms (w₃.store.typeDef n).methods,
      g ∈ (w₃.store.typeDef n).methods ∨
        MethodListed w₃ g ∧ (w₃.store.methodDef g).declaring = some n := by
    intro g hg
    rcases List.mem_append.1 hg with hg | hg
    · obtain ⟨f, -, ⟨id, e, -, he, hrow, -⟩, hd⟩ := forall₂_mem_right hcopied hg
      exact .inr ⟨⟨id, e, he, hrow⟩, hd⟩
    · exact .inl (List.mem_of_mem_filter hg)
  have hs₂ := hs.step hw₂ hst
  obtain ⟨hs', hkeeps, heq⟩ := hs₂.alter hlast (alters_modifyType hs₂.typeIn.2 (fun _ => rfl)
    (fun _ => .inl) (fun _ => .inl) hmem) fun _ _ => rfl
  refine ⟨hs', ?_, w₃, _, hst, hkeeps, heq⟩
  rw [MethodsCopied, heq]
  exact startsWith_reordered (hcopied.imp fun _ _ hf => hf.1.keeps hkeeps) _

/-- The properties of a type are put in place. -/
theorem defineProperties_written {ps : List Property} (hs : C.TypeStage w t r n w₁)
    (hps : List.Forall₂ (fun p q => Read C.source C.reader (Reading.property C.source.store p) q)
      (C.source.store.typeDef t).properties ps)
    (hh : C.source.Has ((C.source.store.typeDef t).properties.flatMap PropertyDef.rows))
    (h : Gives (do
      let properties ← ps.mapM (Writing.property C.catalog)
      Writing.modifyStore (·.modifyType n fun l => { l with properties })) w₁ u w') :
    C.TypeStage w t r n w' ∧ C.PropertiesCopied w' t n ∧ ∃ w₂ ps, w₁.Step w₂ ∧ w₂.Keeps w' ∧
      w'.store.typeDef n = { w₂.store.typeDef n with properties := ps } := by
  obtain ⟨ps', w₂, hps', hlast⟩ := gives_bind.1 h
  obtain ⟨hw₂, hst, hcopied⟩ := Writes.mapM (h := fun p σ => Reading.property σ p) hps
    (fun hmem hq hw h => property_writes (Source.has_flatMap.1 hh _ hmem) hq hw h) hs.faithful hps'
  have hs₂ := hs.step hw₂ hst.step
  obtain ⟨hs', hkeeps, heq⟩ := hs₂.alter hlast
    (alters_sameLists hs₂.typeIn.2 (fun _ => rfl) (fun _ => rfl) (fun _ => rfl) fun _ => rfl)
    fun _ _ => rfl
  refine ⟨hs', ?_, w₂, _, hst.step, hkeeps, heq⟩
  rw [PropertiesCopied, heq]
  exact hcopied.imp fun _ _ h => h.extends hkeeps.store

/-- The events of a type are put in place. -/
theorem defineEvents_written {es : List Event} (hs : C.TypeStage w t r n w₁)
    (hes : List.Forall₂ (fun p q => Read C.source C.reader (Reading.event C.source.store p) q)
      (C.source.store.typeDef t).events es)
    (hh : C.source.Has ((C.source.store.typeDef t).events.flatMap EventDef.rows))
    (h : Gives (do
      let events ← es.mapM (Writing.event C.catalog)
      Writing.modifyStore (·.modifyType n fun l => { l with events })) w₁ u w') :
    C.TypeStage w t r n w' ∧ C.EventsCopied w' t n ∧ ∃ w₂ es, w₁.Step w₂ ∧ w₂.Keeps w' ∧
      w'.store.typeDef n = { w₂.store.typeDef n with events := es } := by
  obtain ⟨es', w₂, hes', hlast⟩ := gives_bind.1 h
  obtain ⟨hw₂, hst, hcopied⟩ := Writes.mapM (h := fun p σ => Reading.event σ p) hes
    (fun hmem hq hw h => event_writes (Source.has_flatMap.1 hh _ hmem) hq hw h) hs.faithful hes'
  have hs₂ := hs.step hw₂ hst.step
  obtain ⟨hs', hkeeps, heq⟩ := hs₂.alter hlast
    (alters_sameLists hs₂.typeIn.2 (fun _ => rfl) (fun _ => rfl) (fun _ => rfl) fun _ => rfl)
    fun _ _ => rfl
  refine ⟨hs', ?_, w₂, _, hst.step, hkeeps, heq⟩
  rw [EventsCopied, heq]
  exact hcopied.imp fun _ _ h => h.extends hkeeps.store

/-- When the nested types of a type are in place, so are all of its children after its members. -/
theorem defineMembers_written {d : TypeData} (ht : C.source.store.Owns C.source.image t)
    (hs : C.TypeStage w t r n w₁) (hn : C.NestedCopied w₁ t n)
    (hc : ChildrenRead C.source C.reader t d)
    (h : Gives (Writing.defineMembers C.catalog n d) w₁ u w') :
    C.TypeStage w t r n w' ∧ C.ChildrenCopied w' t n := by
  obtain ⟨fs, hfs, hfields⟩ := hc.fields
  obtain ⟨ms, hms, hmethods⟩ := hc.methods
  obtain ⟨ps, hps, hproperties⟩ := hc.properties
  obtain ⟨es, hes, hevents⟩ := hc.events
  obtain ⟨hh, hasEvents⟩ := Source.has_append.1 (Source.has_type ht.2)
  obtain ⟨-, hasProperties⟩ := Source.has_append.1 hh
  unfold Writing.defineMembers at h
  rw [hfs, hms, hps, hes] at h
  obtain ⟨_, w₂, h₂, hrest⟩ := gives_bind.1 h
  obtain ⟨_, w₃, h₃, hrest⟩ := gives_bind.1 hrest
  obtain ⟨_, w₄, h₄, h₅⟩ := gives_bind.1 hrest
  obtain ⟨s₂, fields₂, v₂, _, step₂, keeps₂, eq₂⟩ := defineFields_written hs hfields h₂
  obtain ⟨s₃, methods₃, v₃, _, step₃, keeps₃, eq₃⟩ := defineMethods_written s₂ hmethods h₃
  obtain ⟨s₄, properties₄, v₄, _, step₄, keeps₄, eq₄⟩ :=
    defineProperties_written s₃ hproperties hasProperties h₄
  obtain ⟨s₅, events₅, v₅, _, step₅, keeps₅, eq₅⟩ := defineEvents_written s₄ hevents hasEvents h₅
  have nested₂ := (hn.step hs.faithful.remembered hs.typeIn.2 step₂).keeps keeps₂ (by rw [eq₂])
  have nested₃ := (nested₂.step s₂.faithful.remembered s₂.typeIn.2 step₃).keeps keeps₃ (by rw [eq₃])
  have fields₃ := (fields₂.step s₂.faithful.remembered s₂.typeIn.2 step₃).keeps keeps₃ (by rw [eq₃])
  have nested₄ := (nested₃.step s₃.faithful.remembered s₃.typeIn.2 step₄).keeps keeps₄ (by rw [eq₄])
  have fields₄ := (fields₃.step s₃.faithful.remembered s₃.typeIn.2 step₄).keeps keeps₄ (by rw [eq₄])
  have methods₄ := (methods₃.step s₃.faithful.remembered s₃.typeIn.2 step₄).keeps keeps₄ (by rw [eq₄])
  exact ⟨s₅, (nested₄.step s₄.faithful.remembered s₄.typeIn.2 step₅).keeps keeps₅ (by rw [eq₅]),
    (fields₄.step s₄.faithful.remembered s₄.typeIn.2 step₅).keeps keeps₅ (by rw [eq₅]),
    (methods₄.step s₄.faithful.remembered s₄.typeIn.2 step₅).keeps keeps₅ (by rw [eq₅]),
    (properties₄.step s₄.typeIn.2 step₅).keeps keeps₅.store (by rw [eq₅]), events₅⟩

end Members

/-! ### Types with their children -/

/-- The number of types around a type. -/
def depthOf (id : TypeIdentity) : Nat := (id.enclosing.getD []).length

/-- Types with fewer than `m` types around them keep their levels. -/
def KeepsOuter (m : Nat) (w w' : WriteState) : Prop :=
  ∀ id r, Normal id → depthOf id < m → w.writer.types.find? id = some r →
    w'.writer.types.find? id = some r

theorem KeepsOuter.trans {m : Nat} (h : KeepsOuter m w w₁) (h' : KeepsOuter m w₁ w') :
    KeepsOuter m w w' :=
  fun id r hid hm hr => h' id r hid hm (h id r hid hm hr)

theorem KeepsOuter.mono {m m' : Nat} (h : KeepsOuter m w w') (hm : m' ≤ m) : KeepsOuter m' w w' :=
  fun id r hid hlt => h id r hid (Nat.lt_of_lt_of_le hlt hm)

/-- A nested type has one more type around it. -/
theorem depthOf_nested {u : TypeId} (ht : C.source.store.Owns C.source.image t)
    (hu : C.source.store.Owns C.source.image u)
    (hmem : u ∈ (C.source.store.typeDef t).nestedTypes) :
    depthOf (Reading.definitionIdentity C.source.store u) =
      depthOf (Reading.definitionIdentity C.source.store t) + 1 := by
  have hd := (C.regular.nested ht u).1 hmem
  rw [definitionIdentity_nested (C.regular.rooted hu) hd, depthOf]
  rfl

variable (C) in
/-- A type is written with its children. -/
structure WritesType (w : WriteState) (t : TypeId) (row : Row) (w' : WriteState) : Prop where
  faithful : C.Faithful .null w'
  keeps : w.Keeps w'
  outer : KeepsOuter (depthOf (Reading.definitionIdentity C.source.store t)) w w'
  found : ∃ r, w'.writer.types.find? (Reading.definitionIdentity C.source.store t) = some r ∧
    r.row = row ∧ .withChildren ≤ r.level

/-- The row of a type that has been written is its definition in the copy. -/
theorem WritesType.row_eq {row : Row} (h : C.WritesType w t row w') :
    ∃ n, row = .typeDef n ∧ C.TypeWritten w' .withChildren t n := by
  obtain ⟨r, hr, rfl, hl⟩ := h.found
  have hs := (h.faithful.remembered.types (definitionIdentity_normal _ t) hr).stands
  obtain ⟨n, hn, -⟩ := hs.names.eq_typeDef rfl
  exact ⟨n, hn, r, hr, hn, hl⟩

/-- Types that are on record with their children are written one after the other. -/
theorem types_written {depth : Nat} {ts : List TypeId} {ks : List Token} {rows : List Row} {m : Nat}
    (hwrite : ∀ {t k e w row w'}, TypeDone C.source C.reader t k →
      C.catalog.types.get? k = some e → C.Faithful .null w →
      Gives (Writing.typeWithin C.catalog depth e .withChildren) w row w' →
      C.WritesType w t row w')
    (hks : List.Forall₂ (TypeDone C.source C.reader) ts ks)
    (hm : ∀ t ∈ ts, m ≤ depthOf (Reading.definitionIdentity C.source.store t))
    (hw : C.Faithful .null w)
    (h : Gives (ks.mapM fun k => do
      Writing.typeWithin C.catalog depth (← Writing.lookUp C.catalog.types k) .withChildren) w rows w') :
    C.Faithful .null w' ∧ w.Keeps w' ∧ KeepsOuter m w w' ∧
      List.Forall₂ (fun t row => ∃ n, row = .typeDef n ∧ C.TypeWritten w' .withChildren t n)
        ts rows := by
  induction hks generalizing w rows with
  | nil =>
      obtain ⟨rfl, rfl⟩ := gives_mapM_nil.1 h
      exact ⟨hw, .refl _, fun _ _ _ _ hr => hr, .nil⟩
  | cons hk _ ih =>
      obtain ⟨row, w₁, rows', hfirst, hrows, rfl⟩ := gives_mapM_cons.1 h
      obtain ⟨e, he, hrow⟩ := gives_bind_lookUp.1 hfirst
      have first := hwrite hk he hw hrow
      obtain ⟨hw', hkeeps, houter, hall⟩ :=
        ih (fun t ht => hm t (List.mem_cons_of_mem _ ht)) first.faithful hrows
      refine ⟨hw', first.keeps.trans hkeeps,
        (first.outer.mono (hm _ List.mem_cons_self)).trans houter, .cons ?_ hall⟩
      obtain ⟨n, hn, hwritten⟩ := first.row_eq
      exact ⟨n, hn, hwritten.keeps hkeeps⟩

/-- The types nested in a type are put in place. -/
theorem nestTypes_written {depth : Nat} {ks : List Token}
    (hwrite : ∀ {t k e w row w'}, TypeDone C.source C.reader t k →
      C.catalog.types.get? k = some e → C.Faithful .null w →
      Gives (Writing.typeWithin C.catalog depth e .withChildren) w row w' →
      C.WritesType w t row w')
    (ht : C.source.store.Owns C.source.image t)
    (hks : List.Forall₂ (TypeDone C.source C.reader) (C.source.store.typeDef t).nestedTypes ks)
    (hs : C.TypeStage w t r n w) (h : Gives (Writing.nestTypes C.catalog depth n ks) w u w') :
    ∃ w₁, w.Keeps w₁ ∧
      KeepsOuter (depthOf (Reading.definitionIdentity C.source.store t) + 1) w w₁ ∧
      C.TypeStage w₁ t r n w' ∧ C.NestedCopied w' t n := by
  obtain ⟨rows, w₁, hrows, hrest⟩ := gives_bind.1 h
  rw [gives_bind_store] at hrest
  obtain ⟨us, w₂, hus, hlast⟩ := gives_bind.1 hrest
  have hdepth : ∀ u ∈ (C.source.store.typeDef t).nestedTypes,
      depthOf (Reading.definitionIdentity C.source.store t) + 1 ≤
        depthOf (Reading.definitionIdentity C.source.store u) := by
    intro u hu
    obtain ⟨k, -, hdone⟩ := forall₂_mem_left hks hu
    exact Nat.le_of_eq (depthOf_nested ht hdone.1 hu).symm
  obtain ⟨hw₁, hkeeps, houter, hwritten⟩ := types_written hwrite hks hdepth hs.faithful hrows
  obtain ⟨rfl, hin⟩ := gives_mapM_still gives_nestedIn hus
  have hcopied : List.Forall₂ (fun v u => C.TypeWritten w₂ .withChildren v u ∧
      (w₂.store.typeDef u).declaring = some n) (C.source.store.typeDef t).nestedTypes us :=
    forall₂_comp hwritten hin fun ⟨v, hv, hf⟩ hg => by
      cases hv.symm.trans hg.1
      exact ⟨hf, hg.2⟩
  have hmem : ∀ u ∈ Writing.reordered us (w₂.store.typeDef n).nestedTypes,
      u ∈ (w₂.store.typeDef n).nestedTypes ∨
        TypeListed w₂ u ∧ (w₂.store.typeDef u).declaring = some n := by
    intro u hu
    rcases List.mem_append.1 hu with hu | hu
    · obtain ⟨v, -, ⟨e, he, hrow, -⟩, hd⟩ := forall₂_mem_right hcopied hu
      exact .inr ⟨⟨_, e, definitionIdentity_normal _ v, he, hrow⟩, hd⟩
    · exact .inl (List.mem_of_mem_filter hu)
  have hs₁ : C.TypeStage w₂ t r n w₂ := .start hw₁
    (houter _ _ (definitionIdentity_normal _ t) (Nat.lt_succ_self _) hs.found) hs.row hs.level
  obtain ⟨hs', hkeeps', heq⟩ := hs₁.alter hlast (alters_modifyType hs₁.typeIn.2 (fun _ => rfl) hmem
    (fun _ => .inl) fun _ => .inl) fun _ _ => rfl
  refine ⟨w₂, hkeeps, houter, hs', ?_⟩
  rw [NestedCopied, heq]
  exact startsWith_reordered (hcopied.imp fun _ _ hf => hf.1.keeps hkeeps') _

/-- A type whose children are in place is marked as written with them. -/
theorem TypeStage.close (hs : C.TypeStage w t r n w₁) (hl : .definition ≤ r.level)
    (ht : C.source.store.Owns C.source.image t) (hc : C.ChildrenCopied w₁ t n) :
    C.WritesType w t (.typeDef n)
      (w₁.atLevel (Reading.definitionIdentity C.source.store t) .withChildren) := by
  have hle : r.level ≤ .withChildren := Level.le_of_lt (Int32.not_le.1 hs.level)
  obtain ⟨hw', hkeeps, hfound, hothers⟩ := hs.faithful.levelType hs.found hs.row hle ht
    (hs.faithful.copied.types ht ⟨r, hs.found, hs.row, hl⟩) fun _ => hc
  refine ⟨hw', hs.keeps.trans hkeeps, fun id e hid hlt hr => ?_, _, hfound, hs.row, Level.le_refl _⟩
  refine hothers hid (fun heq => ?_) (hs.types hid hr)
  rw [heq] at hlt
  exact Nat.lt_irrefl _ hlt

/-- A type is given its definition if it does not have it yet. -/
theorem definesOnce_written {d : TypeData} (hs : C.TypeStage w t r n w)
    (ht : C.source.store.Owns C.source.image t)
    (hd : Read C.source C.reader (Reading.typeData C.source.store (C.source.store.typeDef t)) d.bare)
    (h : DefinesOnce C.catalog n (Reading.definitionIdentity C.source.store t) d w w') :
    w.Keeps w' ∧ KeepsOuter (depthOf (Reading.definitionIdentity C.source.store t)) w w' ∧
      ∃ r', C.TypeStage w' t r' n w' ∧ .definition ≤ r'.level := by
  unfold DefinesOnce at h
  rw [level_of_find? hs.found] at h
  obtain ⟨hlt, v, hv, rfl⟩ | ⟨hlt, rfl⟩ := h
  · have hl : ¬ .definition ≤ r.level := Int32.not_le.2 hlt
    obtain ⟨hs₁, hecho⟩ := defineType_written hs hl ht hd (d := d.bare) hv
    obtain ⟨hw', hkeeps, hfound, hothers⟩ := hs₁.faithful.levelType hs₁.found hs₁.row
      (Level.le_of_lt hlt) ht hecho fun h => absurd h (by decide)
    refine ⟨hs₁.keeps.trans hkeeps, fun id e hid hless hr => ?_, _,
      .start hw' hfound hs₁.row (show ¬ Level.withChildren ≤ .definition by decide), Level.le_refl _⟩
    refine hothers hid (fun heq => ?_) (hs₁.types hid hr)
    rw [heq] at hless
    exact Nat.lt_irrefl _ hless
  · exact ⟨.refl _, fun _ _ _ _ hr => hr, r, hs, Level.le_of_not_lt hlt⟩

/-- A type that is on record with its children is written with them. -/
theorem typeWithin_written (depth : Nat) : ∀ {t k e w row w'}, TypeDone C.source C.reader t k →
    C.catalog.types.get? k = some e → C.Faithful .null w →
    Gives (Writing.typeWithin C.catalog depth e .withChildren) w row w' → C.WritesType w t row w' := by
  induction depth with
  | zero => exact fun _ _ _ h => absurd h gives_throw
  | succ depth ih =>
      rintro t k e w row w' ⟨ht, reg, hreg, rfl, hlevel⟩ he hw h
      have hnormal := definitionIdentity_normal C.source.store t
      obtain ⟨d, hd, hsome⟩ := C.recorded.complete hnormal hreg hlevel
      cases he.symm.trans hd
      obtain ⟨t', ht', hidentity, hdata, hchildren⟩ := C.recorded.types hd
      obtain rfl := C.regular.distinct (.own ht) (.own ht') hidentity
      have hread := hchildren hsome
      obtain ⟨w₁, hrow, hrest⟩ := gives_typeDefinition h
      obtain ⟨hw₁, hst, -, r, hr, rfl⟩ := typeRow_stands (.native t (.own ht) rfl) hw hrow
      rw [level_of_find? hr] at hrest
      obtain ⟨hle, rfl⟩ | ⟨hle, n, w₂, w₃, w₄, hn, honce, hnested, hmembers, rfl⟩ := hrest
      · exact ⟨hw₁, hst.step.keeps, fun _ _ hid _ he => hst.types hid he, r, hr, rfl, hle⟩
      · obtain ⟨keeps₂, outer₂, r', s₂, hl⟩ :=
          definesOnce_written (.start hw₁ hr hn hle) ht hdata honce
        obtain ⟨ks, hks, hnestedDone⟩ := hread.nested
        rw [hks] at hnested
        obtain ⟨w₂', keeps₃, outer₃, s₃, nested⟩ := nestTypes_written ih ht hnestedDone s₂ hnested
        obtain ⟨s₄, children⟩ := defineMembers_written ht s₃ nested hread hmembers
        have last := s₄.close hl ht children
        rw [hn]
        refine ⟨last.faithful, hst.step.keeps.trans (keeps₂.trans (keeps₃.trans last.keeps)), ?_,
          last.found⟩
        exact KeepsOuter.trans (fun _ _ hid _ he => hst.types hid he)
          (outer₂.trans ((outer₃.mono (Nat.le_succ _)).trans last.outer))

end Copy

end CilCatalog
