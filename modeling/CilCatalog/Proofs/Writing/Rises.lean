import CilCatalog.Proofs.Journal
import CilCatalog.Proofs.Writing.Stays

/-!
# What a writer remembers

A writer forgets nothing: the row that it remembers of an entity stays, and its level climbs.

* `Memory.Rises`, `Writer.Rises`: nothing is forgotten, of one kind of entity and of all.
* `changing_rises`: this holds of whatever is made and changed, as long as no level is lowered.
* `Writing.remembering`: how the row of an entity is found, whatever its kind.
* `typeRow_recorded`, `fieldRow_recorded`, `methodRow_recorded`: the row that is found for an entity is the one that is remembered of it from then on.
-/

namespace CilCatalog

open Live

/-- A level stays or is raised, and not above the highest. -/
def Level.Climbs (l l' : Level) : Prop := l ≤ l' ∧ (l ≤ .withChildren → l' ≤ .withChildren)

namespace Level.Climbs

variable {a b c : Level}

theorem refl (a : Level) : a.Climbs a := ⟨Level.le_refl a, id⟩

theorem trans (h : a.Climbs b) (h' : b.Climbs c) : a.Climbs c :=
  ⟨Level.le_trans h.1 h'.1, fun ha => h'.2 (h.2 ha)⟩

theorem of_lt (h : a < b) (hb : b ≤ .withChildren) : a.Climbs b := ⟨Level.le_of_lt h, fun _ => hb⟩

end Level.Climbs

/-! ### Memories -/

namespace Memory

variable {ι : Type} [Identity ι] {m m' m'' : Memory ι} {id id' : ι} {r : Row} {level : Level}

/-- Nothing is forgotten: rows stay, and levels climb. -/
structure Rises (m m' : Memory ι) : Prop where
  rows : ∀ {id r}, m.row? id = some r → m'.row? id = some r
  levels : ∀ id, (m.level id).Climbs (m'.level id)

namespace Rises

theorem refl (m : Memory ι) : m.Rises m := ⟨fun h => h, fun _ => .refl _⟩

theorem trans (h : m.Rises m') (h' : m'.Rises m'') : m.Rises m'' :=
  ⟨fun hr => h'.rows (h.rows hr), fun id => (h.levels id).trans (h'.levels id)⟩

theorem append (m : Memory ι) (id : ι) (r : Row) : m.Rises (m ++ [(id, ⟨r, .reference⟩)]) :=
  ⟨row?_append, fun id' => level_append m id id' r ▸ .refl _⟩

end Rises

/-- What is remembered of an identity is remembered with the level that it is given. -/
theorem level_atLevel_self (h : m.row? id = some r) : (m.atLevel id level).level id = level := by
  obtain ⟨w, hw, -⟩ := Option.map_eq_some_iff.1 h
  rw [Memory.level, find?_atLevel_self, hw]
  rfl

section Lawful

variable [LawfulIdentity ι]

/-- The same is remembered of identities that are the same. -/
theorem find?_congr (h : Identity.same id id' = true) : m.find? id = m.find? id' := by
  rw [find?, find?]
  congr
  funext e
  exact same_congr_right h

/-- A level is changed of the same identities only. -/
theorem level_atLevel (m : Memory ι) (id : ι) (level : Level) (id' : ι) :
    (m.atLevel id level).level id' = m.level id' ∨
      Identity.same id id' = true ∧ (m.atLevel id level).level id' = level := by
  induction m with
  | nil => exact .inl rfl
  | cons e m ih =>
      change Memory.level ((if Identity.same e.1 id then (e.1, { e.2 with level }) else e) ::
        atLevel m id level) id' = _ ∨ _ ∧ Memory.level (_ :: atLevel m id level) id' = _
      simp only [Memory.level, find?_cons] at ih ⊢
      by_cases hs : Identity.same e.1 id = true
      · by_cases hs' : Identity.same e.1 id' = true
        · simp only [if_pos hs, if_pos hs']
          exact .inr ⟨same_trans (same_symm hs) hs', rfl⟩
        · simpa only [if_pos hs, if_neg hs'] using ih
      · by_cases hs' : Identity.same e.1 id' = true
        · simp only [if_neg hs, if_pos hs', true_or]
        · simpa only [if_neg hs, if_neg hs'] using ih

/-- Nothing is forgotten when a level is raised. -/
theorem Rises.atLevel (h : (m.level id).Climbs level) : m.Rises (m.atLevel id level) where
  rows hr := (row?_atLevel level).trans hr
  levels id' := by
    rcases m.level_atLevel id level id' with heq | ⟨hs, heq⟩
    · exact heq ▸ .refl _
    · have same : m.level id' = m.level id := by rw [Memory.level, Memory.level, find?_congr hs]
      rw [heq, same]
      exact h

end Lawful

end Memory

/-! ### Writers -/

/-- Nothing is forgotten of types, fields and methods. -/
structure Writer.Rises (v v' : Writer) : Prop where
  types : v.types.Rises v'.types
  fields : v.fields.Rises v'.fields
  methods : v.methods.Rises v'.methods

namespace Writer.Rises

theorem refl (v : Writer) : v.Rises v := ⟨.refl _, .refl _, .refl _⟩

theorem trans {v v' v'' : Writer} (h : v.Rises v') (h' : v'.Rises v'') : v.Rises v'' :=
  ⟨h.types.trans h'.types, h.fields.trans h'.fields, h.methods.trans h'.methods⟩

end Writer.Rises

/-- The writer has forgotten nothing from one state to another. -/
abbrev WriteState.Rises (w w' : WriteState) : Prop := w.writer.Rises w'.writer

theorem changing_rises : Changing WriteState.Rises where
  trans h h' := h.trans h'
  rows _ := .refl _
  addType _ _ _ _ := .refl _
  addNestedType _ _ _ _ _ := .refl _
  note w _ _ := ⟨.refl w.writer.types, .refl w.writer.fields, .refl w.writer.methods⟩
  noteType _ _ _ := ⟨.append _ _ _, .refl _, .refl _⟩
  addField _ _ _ := .refl _
  addMethod _ _ _ := .refl _
  noteField _ _ _ := ⟨.refl _, .append _ _ _, .refl _⟩
  noteMethod _ _ _ := ⟨.refl _, .refl _, .append _ _ _⟩
  changeField _ _ _ := .refl _
  changeMethod _ _ _ := .refl _

theorem changing_likewise : Changing fun w w' => w.writer.Likewise w'.writer where
  toMaking := making_likewise
  changeField _ _ _ := .note _ _ _
  changeMethod _ _ _ := .note _ _ _

/-! ### Rows that are remembered -/

section Remembering

variable {ι : Type} [Identity ι] {memory : Writer → Memory ι} {put : Memory ι → Writer → Writer}
  {id : ι} {find : Writing Row} {w w' : WriteState} {r : Row}

/-- The row that is remembered of an entity, or else the one that is found for it, which is remembered from then on. -/
def Writing.remembering (memory : Writer → Memory ι) (put : Memory ι → Writer → Writer) (id : ι)
    (find : Writing Row) : Writing Row := do
  match (memory (← writer)).find? id with
  | some e => return e.row
  | none   =>
      let r ← find
      modifyWriter fun v => put (memory v ++ [(id, ⟨r, .reference⟩)]) v
      return r

/-- The row that is remembered is given, and nothing is done for it. -/
theorem gives_remembering_known (h : (memory w.writer).row? id = some r) :
    Gives (Writing.remembering memory put id find) w r w := by
  obtain ⟨e, he, rfl⟩ := Option.map_eq_some_iff.1 h
  rw [Writing.remembering, gives_bind_writer, he]
  exact gives_pure.2 ⟨rfl, rfl⟩

/-- The row that is given is what is remembered, as long as nothing is remembered of the entity while it is looked for. -/
theorem remembering_recorded [NormalForm ι] (hput : ∀ m v, memory (put m v) = m)
    (stays : ∀ {r w₁}, Gives find w r w₁ →
      (memory w₁.writer).find? id = (memory w.writer).find? id)
    (h : Gives (Writing.remembering memory put id find) w r w') :
    (memory w'.writer).row? id = some r := by
  rw [Writing.remembering, gives_bind_writer] at h
  split at h
  · next e he =>
      obtain ⟨rfl, rfl⟩ := gives_pure.1 h
      rw [Memory.row?, he]
      rfl
  · next unknown =>
      obtain ⟨r', w₁, hr, h⟩ := gives_bind.1 h
      rw [gives_bind_modifyWriter] at h
      obtain ⟨rfl, rfl⟩ := gives_pure.1 h
      rw [hput]
      exact Memory.row?_append_self ((stays hr).trans unknown)

theorem rememberType_eq (id : TypeIdentity) (resolve : Writing Row) :
    Writing.rememberType id resolve =
      Writing.remembering Writer.types (fun m v => { v with types := m }) id resolve := rfl

theorem fieldRow_eq (c : Catalog) (id : MemberIdentity) : Writing.fieldRow c id =
    Writing.remembering Writer.fields (fun m v => { v with fields := m }) id
      (Writing.resolveField c id) := rfl

theorem methodRow_eq (c : Catalog) (id : MemberIdentity) : Writing.methodRow c id =
    Writing.remembering Writer.methods (fun m v => { v with methods := m }) id
      (Writing.resolveMethod c id) := rfl

end Remembering

/-! ### The rows of types -/

section Types

variable {w w' : WriteState} {id : TypeIdentity} {r : Row} {resolve : Writing Row} {names : List Bytes}
  {n : Nat}

/-- What is remembered of types is as it was if there are `n` types or more around them. -/
def WriteState.TypesStay (n : Nat) (w w' : WriteState) : Prop :=
  ∀ {id : TypeIdentity}, n ≤ id.depth → w'.writer.types.find? id = w.writer.types.find? id

theorem locating_typesStay (n : Nat) : Locating (WriteState.TypesStay n) where
  trans h h' _ hid := (h' hid).trans (h hid)
  rows _ _ _ := rfl
  addType _ _ _ _ _ _ := rfl
  addNestedType _ _ _ _ _ _ _ := rfl
  note _ _ _ _ _ := rfl

/-- What is found for an entity is what is remembered of it, as long as nothing is remembered of it on the way. -/
theorem rememberType_recorded (h : Makes (WriteState.TypesStay id.depth) resolve) :
    Makes (WriteState.TypesStay (id.depth + 1)) (Writing.rememberType id resolve) ∧
      ∀ {w r w'}, Gives (Writing.rememberType id resolve) w r w' →
        w'.writer.types.row? id = some r := by
  constructor
  · have m := locating_typesStay (id.depth + 1)
    refine m.bind m.writer fun v => ?_
    split
    · exact m.pure _
    · refine m.bind (fun w _ hid => h w (Nat.le_of_succ_le hid)) fun r => m.bind ?_ fun _ => m.pure r
      refine Locating.modifyWriter fun w id' hid => Memory.find?_append_of_not_same ?_
      refine eq_false_of_ne_true fun hs => ?_
      have := TypeIdentity.depth_of_same hs
      omega
  · intro w r w' hg
    rw [rememberType_eq] at hg
    exact remembering_recorded (fun _ _ => rfl) (fun hr => h.gives hr (Nat.le_refl _)) hg

/-- To find a type only what is remembered of it and of the types around it is changed. -/
theorem typeRowIn_recorded (hn : id.enclosing.getD [] = names) :
    Makes (WriteState.TypesStay (id.depth + 1)) (Writing.typeRowIn names id) ∧
      ∀ {w r w'}, Gives (Writing.typeRowIn names id) w r w' → w'.writer.types.row? id = some r := by
  have m := locating_typesStay id.depth
  induction names generalizing id with
  | nil =>
      rw [Writing.typeRowIn]
      exact rememberType_recorded
        (m.resolution id fun a => Locating.ite (m.topDefinition _ _) (m.referenceIn _ _ _))
  | cons outer rest ih =>
      rw [Writing.typeRowIn]
      have hrest : (Writing.outerIdentity id outer rest).enclosing.getD [] = rest := by
        cases rest <;> rfl
      have depth : (Writing.outerIdentity id outer rest).depth + 1 = id.depth := by
        rw [TypeIdentity.depth, TypeIdentity.depth, hrest, hn, List.length_cons]
      have outside := (ih hrest (locating_typesStay _)).1
      rw [depth] at outside
      exact rememberType_recorded
        (m.resolution id fun _ => m.bind outside fun r => m.rowInside r _)

theorem typeRow_recorded (h : Gives (Writing.typeRow id) w r w') :
    w'.writer.types.row? id = some r := (typeRowIn_recorded rfl).2 h

/-- The row that is remembered of a type is found, and nothing is done for it. -/
theorem gives_typeRow_known (h : w.writer.types.row? id = some r) : Gives (Writing.typeRow id) w r w := by
  have known (resolve : Writing Row) : Gives (Writing.rememberType id resolve) w r w := by
    rw [rememberType_eq]
    exact gives_remembering_known h
  rw [Writing.typeRow]
  cases id.enclosing.getD [] <;> rw [Writing.typeRowIn] <;> exact known _

end Types

/-! ### The rows of fields and methods -/

section Members

variable {c : Catalog} {w w' : WriteState} {id : MemberIdentity} {r : Row}

/-- To look for types is to remember nothing of fields and methods. -/
theorem typing_members : Typing fun w w' =>
    w'.writer.fields = w.writer.fields ∧ w'.writer.methods = w.writer.methods where
  trans h h' := ⟨h'.1.trans h.1, h'.2.trans h.2⟩
  rows _ := ⟨rfl, rfl⟩
  addType _ _ _ _ := ⟨rfl, rfl⟩
  addNestedType _ _ _ _ _ := ⟨rfl, rfl⟩
  note _ _ _ := ⟨rfl, rfl⟩
  noteType _ _ _ := ⟨rfl, rfl⟩

theorem fieldRow_recorded (h : Gives (Writing.fieldRow c id) w r w') :
    w'.writer.fields.row? id = some r := by
  rw [fieldRow_eq] at h
  refine remembering_recorded (fun _ _ => rfl) (fun hr => ?_) h
  rw [((typing_members.resolveField c (fun _ _ _ => ⟨rfl, rfl⟩) id).gives hr).1]

theorem methodRow_recorded (h : Gives (Writing.methodRow c id) w r w') :
    w'.writer.methods.row? id = some r := by
  rw [methodRow_eq] at h
  refine remembering_recorded (fun _ _ => rfl) (fun hr => ?_) h
  rw [((typing_members.resolveMethod c (fun _ _ _ => ⟨rfl, rfl⟩) id).gives hr).2]

theorem gives_fieldRow_known (h : w.writer.fields.row? id = some r) :
    Gives (Writing.fieldRow c id) w r w := by
  rw [fieldRow_eq]
  exact gives_remembering_known h

theorem gives_methodRow_known (h : w.writer.methods.row? id = some r) :
    Gives (Writing.methodRow c id) w r w := by
  rw [methodRow_eq]
  exact gives_remembering_known h

end Members

end CilCatalog
