import CilCatalog.Proofs.Copying.State
import CilCatalog.Proofs.Gives

/-!
# Steps of a writer

What a computation leaves as it is, from a state of the writer to a later one.

* `WriteState.Keeps`: nothing is lost, and what is remembered is remembered still.
* `WriteState.Step`: the contents of types stay, and everything remembered is remembered still.
* `WriteState.Refers`: nothing is defined either; this is what writing references comes to.
* `WriteState.TypeStep`: nor are there new members; this is what writing types and signatures comes to.
-/

namespace CilCatalog

open Live

/-! ### What stays -/

/-- A type keeps its contents, and its lists get nothing but new members at the end. -/
def TypeKept (σ σ' : Store) (t : TypeId) : Prop :=
  ∃ ns fs ms, σ'.typeDef t = { σ.typeDef t with
      nestedTypes := (σ.typeDef t).nestedTypes ++ ns
      fields := (σ.typeDef t).fields ++ fs
      methods := (σ.typeDef t).methods ++ ms } ∧
    (∀ n ∈ ns, σ.typeDefs.length ≤ n.index) ∧ (∀ f ∈ fs, σ.fieldDefs.length ≤ f.index) ∧
    (∀ f ∈ ms, σ.methodDefs.length ≤ f.index)

theorem TypeKept.of_eq {σ σ' : Store} {t : TypeId} (h : σ'.typeDef t = σ.typeDef t) :
    TypeKept σ σ' t := by
  refine ⟨[], [], [], ?_, nofun, nofun, nofun⟩
  simp only [List.append_nil]
  exact h

theorem TypeKept.trans {σ σ' σ'' : Store} {t : TypeId} (h : TypeKept σ σ' t)
    (h' : TypeKept σ' σ'' t) (he : σ.Extends σ') : TypeKept σ σ'' t := by
  obtain ⟨ns, fs, ms, heq, hn, hf, hm⟩ := h
  obtain ⟨ns', fs', ms', heq', hn', hf', hm'⟩ := h'
  refine ⟨ns ++ ns', fs ++ fs', ms ++ ms', ?_, ?_, ?_, ?_⟩
  · rw [heq', heq]
    simp only [List.append_assoc]
  · intro n hmem
    rcases List.mem_append.1 hmem with hmem | hmem
    · exact hn n hmem
    · exact Nat.le_trans he.typesLe (hn' n hmem)
  · intro f hmem
    rcases List.mem_append.1 hmem with hmem | hmem
    · exact hf f hmem
    · exact Nat.le_trans he.fieldsLe (hf' f hmem)
  · intro f hmem
    rcases List.mem_append.1 hmem with hmem | hmem
    · exact hm f hmem
    · exact Nat.le_trans he.methodsLe (hm' f hmem)

namespace WriteState

/-- Everything that there is, is there still, and is remembered if it was. -/
structure Keeps (w w' : WriteState) : Prop where
  store : w.store.Extends w'.store
  types : ∀ {id r}, Normal id → w.writer.types.find? id = some r →
    ∃ r', w'.writer.types.find? id = some r' ∧ r'.row = r.row ∧ r.level ≤ r'.level
  fields : ∀ {id r}, w.writer.fields.find? id = some r →
    ∃ r', w'.writer.fields.find? id = some r' ∧ r'.row = r.row ∧ r.level ≤ r'.level
  methods : ∀ {id r}, w.writer.methods.find? id = some r →
    ∃ r', w'.writer.methods.find? id = some r' ∧ r'.row = r.row ∧ r.level ≤ r'.level

/-- The contents of types stay, and everything remembered is remembered still. -/
structure Step (w w' : WriteState) : Prop where
  store : w.store.Extends w'.store
  kept : ∀ t : TypeId, t.index < w.store.typeDefs.length → TypeKept w.store w'.store t
  types : ∀ {id r}, Normal id → w.writer.types.find? id = some r →
    w'.writer.types.find? id = some r
  fields : ∀ {id r}, w.writer.fields.find? id = some r →
    ∃ r', w'.writer.fields.find? id = some r' ∧ r'.row = r.row ∧ r.level ≤ r'.level
  methods : ∀ {id r}, w.writer.methods.find? id = some r →
    ∃ r', w'.writer.methods.find? id = some r' ∧ r'.row = r.row ∧ r.level ≤ r'.level

/-- Nothing is lost, and nothing is defined. -/
structure Refers (w w' : WriteState) : Prop where
  store : w.store.Extends w'.store
  kept : ∀ t : TypeId, t.index < w.store.typeDefs.length → TypeKept w.store w'.store t
  fieldDefs : ∀ f : FieldId, f.index < w.store.fieldDefs.length →
    w'.store.fieldDef f = w.store.fieldDef f
  methodDefs : ∀ f : MethodId, f.index < w.store.methodDefs.length →
    w'.store.methodDef f = w.store.methodDef f
  types : ∀ {id r}, Normal id → w.writer.types.find? id = some r →
    w'.writer.types.find? id = some r
  fields : ∀ {id r}, w.writer.fields.find? id = some r → w'.writer.fields.find? id = some r
  methods : ∀ {id r}, w.writer.methods.find? id = some r → w'.writer.methods.find? id = some r
  typesPlain : ∀ {id r}, Normal id → w'.writer.types.find? id = some r → .definition ≤ r.level →
    w.writer.types.find? id = some r
  fieldsPlain : ∀ {id r}, w'.writer.fields.find? id = some r → .definition ≤ r.level →
    w.writer.fields.find? id = some r
  methodsPlain : ∀ {id r}, w'.writer.methods.find? id = some r →
    w.writer.methods.find? id = some r ∨
      ¬ .definition ≤ r.level ∧ ∀ g, r.row = .methodDef g →
        g.index < w'.store.methodDefs.length ∧ (w'.store.methodDef g).body = none
  image : w'.writer.image = w.writer.image
  assemblyRefs : (w.store.image w.writer.image).assemblyRefs ⊆
    (w'.store.image w.writer.image).assemblyRefs
  typeRefs : (w.store.image w.writer.image).typeRefs ⊆ (w'.store.image w.writer.image).typeRefs
  nextRow : w.store.nextRow ≤ w'.store.nextRow

/-- Nothing is lost or defined, and there are no new members. -/
structure TypeStep (w w' : WriteState) : Prop extends Refers w w' where
  sameFieldDefs : w'.store.fieldDefs = w.store.fieldDefs
  sameMethodDefs : w'.store.methodDefs = w.store.methodDefs
  sameFields : w'.writer.fields = w.writer.fields
  sameMethods : w'.writer.methods = w.writer.methods

variable {w w' w'' : WriteState}

theorem Refers.step (h : w.Refers w') : w.Step w' where
  store := h.store
  kept := h.kept
  types := h.types
  fields hr := ⟨_, h.fields hr, rfl, Level.le_refl _⟩
  methods hr := ⟨_, h.methods hr, rfl, Level.le_refl _⟩

theorem Step.keeps (h : w.Step w') : w.Keeps w' where
  store := h.store
  types hid hr := ⟨_, h.types hid hr, rfl, Level.le_refl _⟩
  fields := h.fields
  methods := h.methods

theorem Keeps.refl (w : WriteState) : w.Keeps w :=
  ⟨.refl _, fun _ h => ⟨_, h, rfl, Level.le_refl _⟩, fun h => ⟨_, h, rfl, Level.le_refl _⟩,
    fun h => ⟨_, h, rfl, Level.le_refl _⟩⟩

theorem Keeps.trans (h : w.Keeps w') (h' : w'.Keeps w'') : w.Keeps w'' where
  store := h.store.trans h'.store
  types hid hr := by
    obtain ⟨r₁, hr₁, hrow₁, hl₁⟩ := h.types hid hr
    obtain ⟨r₂, hr₂, hrow₂, hl₂⟩ := h'.types hid hr₁
    exact ⟨r₂, hr₂, hrow₂.trans hrow₁, Level.le_trans hl₁ hl₂⟩
  fields hr := by
    obtain ⟨r₁, hr₁, hrow₁, hl₁⟩ := h.fields hr
    obtain ⟨r₂, hr₂, hrow₂, hl₂⟩ := h'.fields hr₁
    exact ⟨r₂, hr₂, hrow₂.trans hrow₁, Level.le_trans hl₁ hl₂⟩
  methods hr := by
    obtain ⟨r₁, hr₁, hrow₁, hl₁⟩ := h.methods hr
    obtain ⟨r₂, hr₂, hrow₂, hl₂⟩ := h'.methods hr₁
    exact ⟨r₂, hr₂, hrow₂.trans hrow₁, Level.le_trans hl₁ hl₂⟩

theorem Step.refl (w : WriteState) : w.Step w :=
  ⟨.refl _, fun _ _ => .of_eq rfl, fun _ h => h, fun h => ⟨_, h, rfl, Level.le_refl _⟩,
    fun h => ⟨_, h, rfl, Level.le_refl _⟩⟩

theorem Refers.refl (w : WriteState) : w.Refers w :=
  ⟨.refl _, fun _ _ => .of_eq rfl, fun _ _ => rfl, fun _ _ => rfl, fun _ h => h, fun h => h,
    fun h => h, fun _ h _ => h, fun h _ => h, fun h => .inl h, rfl, List.Subset.refl _,
    List.Subset.refl _, Nat.le_refl _⟩

theorem TypeStep.refl (w : WriteState) : w.TypeStep w := ⟨.refl w, rfl, rfl, rfl, rfl⟩

theorem Step.trans (h : w.Step w') (h' : w'.Step w'') : w.Step w'' where
  store := h.store.trans h'.store
  kept t ht := (h.kept t ht).trans (h'.kept t (Nat.lt_of_lt_of_le ht h.store.typesLe)) h.store
  types hid hr := h'.types hid (h.types hid hr)
  fields hr := by
    obtain ⟨r₁, hr₁, hrow₁, hl₁⟩ := h.fields hr
    obtain ⟨r₂, hr₂, hrow₂, hl₂⟩ := h'.fields hr₁
    exact ⟨r₂, hr₂, hrow₂.trans hrow₁, Level.le_trans hl₁ hl₂⟩
  methods hr := by
    obtain ⟨r₁, hr₁, hrow₁, hl₁⟩ := h.methods hr
    obtain ⟨r₂, hr₂, hrow₂, hl₂⟩ := h'.methods hr₁
    exact ⟨r₂, hr₂, hrow₂.trans hrow₁, Level.le_trans hl₁ hl₂⟩

theorem Refers.trans (h : w.Refers w') (h' : w'.Refers w'') : w.Refers w'' where
  store := h.store.trans h'.store
  kept := (h.step.trans h'.step).kept
  fieldDefs f hf := (h'.fieldDefs f (Nat.lt_of_lt_of_le hf h.store.fieldsLe)).trans (h.fieldDefs f hf)
  methodDefs f hf :=
    (h'.methodDefs f (Nat.lt_of_lt_of_le hf h.store.methodsLe)).trans (h.methodDefs f hf)
  types hid hr := h'.types hid (h.types hid hr)
  fields hr := h'.fields (h.fields hr)
  methods hr := h'.methods (h.methods hr)
  typesPlain hid hr hl := h.typesPlain hid (h'.typesPlain hid hr hl) hl
  fieldsPlain hr hl := h.fieldsPlain (h'.fieldsPlain hr hl) hl
  methodsPlain {id r} hr := by
    rcases h'.methodsPlain hr with hr | ⟨hl, hb⟩
    · rcases h.methodsPlain hr with hr | ⟨hl, hb⟩
      · exact .inl hr
      · refine .inr ⟨hl, fun g hg => ?_⟩
        obtain ⟨hlt, hnone⟩ := hb g hg
        exact ⟨Nat.lt_of_lt_of_le hlt h'.store.methodsLe, by rw [h'.methodDefs g hlt, hnone]⟩
    · exact .inr ⟨hl, hb⟩
  image := h'.image.trans h.image
  assemblyRefs := List.Subset.trans h.assemblyRefs (h.image ▸ h'.assemblyRefs)
  typeRefs := List.Subset.trans h.typeRefs (h.image ▸ h'.typeRefs)
  nextRow := Nat.le_trans h.nextRow h'.nextRow

theorem TypeStep.trans (h : w.TypeStep w') (h' : w'.TypeStep w'') : w.TypeStep w'' where
  toRefers := h.toRefers.trans h'.toRefers
  sameFieldDefs := h'.sameFieldDefs.trans h.sameFieldDefs
  sameMethodDefs := h'.sameMethodDefs.trans h.sameMethodDefs
  sameFields := h'.sameFields.trans h.sameFields
  sameMethods := h'.sameMethods.trans h.sameMethods

end WriteState

end CilCatalog
