import CilCatalog.Proofs.Stages
import CilCatalog.Proofs.Writing.Rises
import CilCatalog.Writing.Entity

/-!
# Writing again, and by stages

A writer finds the row of an entity, writes what its definition says and then its children, up to the level that it is asked for.  What it has written it does not write again.

* `WritingKind`: the parts of writing an entity, for types, fields and methods.
* `WritingKind.Lawful`: nothing is forgotten by them, and what is found is remembered.
* `WriteState.rises_afterAll`: whatever a writer is asked for, it forgets nothing.
* `Writer.writes_repeated`: to write an entity again, at the same level or a lower one, gives the row that it has and changes nothing.  To write it at several levels one after the other comes to the same as to write it at the last one at once.
-/

namespace CilCatalog

open Live

variable {w w' w'' : WriteState}

/-- From a state a computation may be followed by others that depend on what it gives. -/
theorem rises_bind {α β : Type} {x : Writing α} {f : α → Writing β}
    (hx : w.Rises (x w).2) (hf : ∀ {a w₁}, Gives x w a w₁ → w₁.Rises (f a w₁).2) :
    w.Rises ((x >>= f) w).2 := by
  cases h : x w with
  | mk r w₁ =>
      rw [h] at hx
      cases r with
      | error e => rwa [run_bind_error h]
      | ok a =>
          rw [run_bind_ok h]
          exact hx.trans (hf h)

namespace Writing

variable {δ κ : Type} {what : String} {name : Bytes} {asked : Level} {data : Option δ}
  {own : Row → Option κ} {row : Row} {k : δ → κ → Writing Unit}

/-- What is done with the data of an entity and its row, if there are data and the row is one of the module. -/
def defining (what : String) (name : Bytes) (asked : Level) (data : Option δ) (own : Row → Option κ)
    (k : δ → κ → Writing Unit) (row : Row) : Writing Unit :=
  match data with
  | none   => refuse (.onlyReference what name asked)
  | some d => do
      askable row.isNull
      match own row with
      | none   => refuse (.notInModule what name ((← store).image (← writer).image).name)
      | some i => k d i

theorem gives_defining {u : Unit} : Gives (defining what name asked data own k row) w u w' ↔
    ∃ d i, data = some d ∧ row.isNull = false ∧ own row = some i ∧ Gives (k d i) w u w' := by
  cases data with
  | none => exact iff_of_false gives_refuseWrite (by rintro ⟨d, i, h, -⟩; exact nomatch h)
  | some d =>
      refine gives_bind_askable.trans ?_
      cases hi : own row with
      | none =>
          refine iff_of_false (fun h => ?_) (by rintro ⟨d, i, -, -, h, -⟩; exact nomatch h)
          obtain ⟨-, h⟩ := h
          rw [gives_bind_store, gives_bind_writer] at h
          exact gives_refuseWrite h
      | some i =>
          constructor
          · exact fun h => ⟨d, i, rfl, h.1, rfl, h.2⟩
          · rintro ⟨d, i, ⟨⟩, hr, ⟨⟩, h⟩
            exact ⟨hr, h⟩

theorem makes_defining {R : WriteState → WriteState → Prop} (m : Locating R)
    (h : ∀ d i, Makes R (k d i)) : Makes R (defining what name asked data own k row) := by
  unfold defining
  split
  · exact m.refuse _
  · refine m.bind (m.askable _) fun _ => ?_
    split
    · exact m.bind m.store fun _ => m.bind m.writer fun _ => m.refuse _
    · exact h _ _

/-- What follows the check of a level may use that the level is one. -/
theorem checkLevel_bind {α : Type} {highest asked : Level} {f g : Unit → Writing α}
    (h : asked ≤ highest → f () = g ()) :
    checkLevel highest asked >>= f = checkLevel highest asked >>= g := by
  unfold checkLevel
  split
  · rfl
  · next hn =>
      rw [pure_bind, pure_bind, h (Level.le_of_not_lt fun hlt => hn (.inr hlt))]

theorem makes_checkLevel {R : WriteState → WriteState → Prop} {α : Type} (m : Locating R)
    {highest asked : Level} {f : Unit → Writing α} (h : asked ≤ highest → Makes R (f ())) :
    Makes R (checkLevel highest asked >>= f) := by
  unfold checkLevel
  split
  · exact m.refl
  · next hn =>
      rw [pure_bind]
      exact h (Level.le_of_not_lt fun hlt => hn (.inr hlt))

end Writing

/-! ### Kinds of entities -/

/-- Where a writer remembers the entities of a kind, apart from the others. -/
structure Writer.Part (ι : Type) [Identity ι] where
  memory : Writer → Memory ι
  remember : Memory ι → Writer → Writer
  memory_remember : ∀ m v, memory (remember m v) = m
  rises : ∀ {v v'}, Writer.Rises v v' → (memory v).Rises (memory v')
  likewise : ∀ {v v'}, Writer.Likewise v v' → ∀ id, (memory v').level id = (memory v).level id
  raised : ∀ {v id level}, ((memory v).level id).Climbs level →
    v.Rises (remember ((memory v).atLevel id level) v)

namespace Writer.Part

def types : Part TypeIdentity where
  memory := Writer.types
  remember m v := { v with types := m }
  memory_remember _ _ := rfl
  rises h := h.types
  likewise h := h.types
  raised h := ⟨.atLevel h, .refl _, .refl _⟩

def fields : Part MemberIdentity where
  memory := Writer.fields
  remember m v := { v with fields := m }
  memory_remember _ _ := rfl
  rises h := h.fields
  likewise h := h.fields
  raised h := ⟨.refl _, .atLevel h, .refl _⟩

def methods : Part MemberIdentity where
  memory := Writer.methods
  remember m v := { v with methods := m }
  memory_remember _ _ := rfl
  rises h := h.methods
  likewise h := h.methods
  raised h := ⟨.refl _, .refl _, .atLevel h⟩

end Writer.Part

/-- How an entity is written: the row that is found for it, its definition and its children, and where it is remembered. -/
structure WritingKind (ι : Type) [Identity ι] where
  id : ι
  part : Writer.Part ι
  row : Writing Row
  defines : Row → Writing Unit
  completes : Row → Writing Unit

namespace WritingKind

variable {ι : Type} [Identity ι] {K : WritingKind ι} {r : Row} {l level : Level}

/-- The entity is remembered as written at a level. -/
def raise (K : WritingKind ι) (level : Level) : Writing Unit :=
  Writing.modifyWriter fun v => K.part.remember ((K.part.memory v).atLevel K.id level) v

/-- The row is found or made, and then what it says is written. -/
def stages (K : WritingKind ι) : Stages (Failure WriteFault) WriteState Unit Row where
  begins := do
    let r ← K.row
    let v ← Writing.writer
    return ((), r, (K.part.memory v).level K.id)
  defines _ r := do
    K.defines r
    K.raise .definition
  completes _ r := do
    K.completes r
    K.raise .withChildren

/-- The entity is remembered with a row and a level. -/
def On (K : WritingKind ι) (w : WriteState) (r : Row) (l : Level) : Prop :=
  (K.part.memory w.writer).row? K.id = some r ∧ (K.part.memory w.writer).level K.id = l

/-- What is needed of a kind: that nothing is forgotten, and that defining an entity leaves all levels as they are. -/
structure Lawful (K : WritingKind ι) : Prop where
  row : Makes WriteState.Rises K.row
  recorded : ∀ {w r w'}, Gives K.row w r w' → (K.part.memory w'.writer).row? K.id = some r
  known : ∀ {w r}, (K.part.memory w.writer).row? K.id = some r → Gives K.row w r w
  defines : ∀ {R}, Changing R →
    (∀ (w : WriteState) t f, WriteState.KeepsMembers f → R w (w.inStore (w.store.modifyType t f))) →
    ∀ r, Makes R (K.defines r)
  completes : ∀ r, Makes WriteState.Rises (K.completes r)

theorem gives_raise : Gives (K.raise level) w () w' ↔
    w' = { w with writer := K.part.remember ((K.part.memory w.writer).atLevel K.id level) w.writer } :=
  gives_modifyWriter

theorem run_eq : K.stages.run level = K.row >>= fun r => Writing.writer >>= fun v =>
    K.stages.finish level () r ((K.part.memory v).level K.id) >>= fun _ => pure r := by
  rw [Stages.run, stages]
  simp only [bind_assoc, pure_bind]

theorem gives_begins : Gives K.stages.begins w ((), r, l) w' ↔
    Gives K.row w r w' ∧ l = (K.part.memory w'.writer).level K.id := by
  rw [stages, gives_bind]
  constructor
  · rintro ⟨r', w₁, hr, h⟩
    rw [gives_bind_writer] at h
    obtain ⟨⟨⟩, rfl⟩ := gives_pure.1 h
    exact ⟨hr, rfl⟩
  · rintro ⟨hr, rfl⟩
    refine ⟨r, w', hr, ?_⟩
    rw [gives_bind_writer]
    exact gives_pure.2 ⟨rfl, rfl⟩

/-- What is remembered at a level that has just been reached. -/
theorem on_raise (hr : (K.part.memory w.writer).row? K.id = some r) (h : Gives (K.raise level) w () w') :
    K.On w' r level := by
  obtain rfl := gives_raise.1 h
  rw [On, K.part.memory_remember, Memory.row?_atLevel]
  exact ⟨hr, Memory.level_atLevel_self hr⟩

namespace Lawful

variable (law : K.Lawful)

include law

theorem defines_rises (r : Row) : Makes WriteState.Rises (K.defines r) :=
  law.defines changing_rises (fun _ _ _ _ => .refl _) r

theorem defines_likewise (r : Row) : Makes (fun w w' => w.writer.Likewise w'.writer) (K.defines r) :=
  law.defines changing_likewise (fun _ _ _ _ => .note _ _ _) r

/-- What was not defined is so from then on. -/
theorem defined (hl : (K.part.memory w.writer).level K.id < .definition) (r : Row) :
    w.Rises (K.stages.defines () r w).2 := by
  refine rises_bind (law.defines_rises r w) fun {_ w₁} h => ?_
  have same := K.part.likewise ((law.defines_likewise r).gives h) K.id
  exact K.part.raised (.of_lt (same ▸ hl) (by decide))

/-- What was not complete is so from then on. -/
theorem completed (hl : (K.part.memory w.writer).level K.id < .withChildren) (r : Row) :
    w.Rises (K.stages.completes () r w).2 := by
  refine rises_bind (law.completes r w) fun {_ w₁} h => ?_
  -- the level may have been raised on the way, but not above the highest
  have climbs := (K.part.rises ((law.completes r).gives h)).levels K.id
  exact K.part.raised ⟨climbs.2 (Level.le_of_lt hl), fun _ => Level.le_refl _⟩

/-- The stages of a lawful kind are lawful. -/
theorem stages : K.stages.Lawful (fun _ => True) WriteState.Rises
    fun w _ r l => K.On w r l where
  refl w := .refl w.writer
  trans h h' := h.trans h'
  unique h h' := h.2.symm.trans h'.2
  stays {w w' _ r l} _ hon hg := by
    have hg := K.part.rises hg
    exact ⟨_, ⟨hg.rows hon.1, rfl⟩, hon.2 ▸ (hg.levels K.id).1⟩
  begins _ h := by
    obtain ⟨hr, rfl⟩ := gives_begins.1 h
    exact ⟨trivial, law.row.gives hr, law.recorded hr, rfl⟩
  again _ _ _ _ hon := gives_begins.2 ⟨law.known hon.1, hon.2.symm⟩
  defines {w w' _ r l} _ hon undefined h := by
    have rises := law.defined (hon.2 ▸ undefined) r
    rw [show K.stages.defines () r w = (.ok (), w') from h] at rises
    obtain ⟨_, w₁, hd, hraise⟩ := gives_bind.1 h
    have kept := (K.part.rises ((law.defines_rises r).gives hd)).rows hon.1
    exact ⟨trivial, rises, on_raise kept hraise⟩
  completes {w w' _ r l} _ hon below h := by
    have rises := law.completed (hon.2 ▸ below) r
    rw [show K.stages.completes () r w = (.ok (), w') from h] at rises
    obtain ⟨_, w₁, hd, hraise⟩ := gives_bind.1 h
    have kept := (K.part.rises ((law.completes r).gives hd)).rows hon.1
    exact ⟨trivial, rises, _, on_raise kept hraise, Level.le_refl _⟩

/-- Nothing is forgotten, whether the work for a level succeeds or fails. -/
theorem run_rises (hl : level ≤ .withChildren) :
    Makes WriteState.Rises (K.stages.run level) := by
  intro w
  have begins : Makes WriteState.Rises K.stages.begins :=
    changing_rises.bind law.row fun _ => changing_rises.bind changing_rises.writer fun _ =>
      changing_rises.pure _
  refine rises_bind (begins w) fun {a w₁} h => ?_
  obtain ⟨⟨⟩, r, old⟩ := a
  obtain ⟨-, -, hon⟩ := law.stages.begins trivial h
  have finish : w₁.Rises (K.stages.finish level () r old w₁).2 := by
    by_cases done : level ≤ old
    · rw [Stages.finish_done done]
      exact changing_rises.pure () w₁
    · by_cases undefined : old < .definition
      · rw [Stages.finish_undefined done undefined]
        refine rises_bind (law.defined (hon.2.symm ▸ undefined) r) fun {_ w₂} hd => ?_
        obtain ⟨-, -, hon⟩ := law.stages.defines trivial hon undefined hd
        split
        · exact changing_rises.pure () w₂
        · exact law.completed (hon.2.symm ▸ (by decide : Level.definition < .withChildren)) r
      · rw [Stages.finish_defined done undefined]
        exact law.completed (hon.2.symm ▸ Level.lt_of_lt_of_le (Level.lt_of_not_le done) hl) r
  exact rises_bind finish fun {_ w₂} _ => changing_rises.pure r w₂

/-- What has been written as far as it is asked for is found, and that is all: also for another entity with the same identity. -/
theorem again {K' : WritingKind ι} (law' : K'.Lawful) [LawfulIdentity ι]
    (hm : K'.part = K.part) (hid : Identity.same K.id K'.id = true) {highest : Level}
    {f f' : Level → Writing Row} (top : highest ≤ .withChildren)
    (performs : K.stages.Performs (fun _ => True) highest f)
    (performs' : K'.stages.Performs (fun _ => True) highest f') {l' : Level}
    (h : Gives (f l) w r w') (low : .reference ≤ l') (hl' : l' ≤ l)
    (hg : w'.Rises w'') : Gives (f' l') w'' r w'' := by
  obtain ⟨⟨-, high⟩, h⟩ := (performs trivial).1 h
  obtain ⟨-, -, i, m, hon, hm'⟩ := law.stages.run_on trivial (Level.le_trans high top) h
  obtain ⟨n, ⟨hr, hn⟩, hmn⟩ := law.stages.stays (i := i) trivial hon hg
  -- the same is remembered of the other identity
  have same := Memory.find?_congr (m := K.part.memory w''.writer) hid
  rw [Memory.row?, same, ← hm] at hr
  rw [Memory.level, same, ← hm] at hn
  refine (performs' trivial).2 ⟨⟨low, Level.le_trans hl' high⟩, Stages.gives_run.2 ⟨(), n, w'', ?_, ?_⟩⟩
  · exact gives_begins.2 ⟨law'.known hr, hn.symm⟩
  · exact (Stages.gives_finish_done (Level.le_trans hl' (Level.le_trans hm' hmn))).2 rfl

end Lawful

/-- Writes an entity without children at a level. -/
def member (K : WritingKind ι) (level : Level) : Writing Row := do
  Writing.checkLevel .definition level
  let row ← K.row
  if level ≤ (K.part.memory (← Writing.writer)).level K.id then return row
  K.defines row
  K.raise .definition
  return row

/-- Writing an entity without children goes through the stages. -/
theorem member_eq_stages : K.member level =
    Writing.checkLevel .definition level >>= fun _ => K.stages.run level := by
  refine Writing.checkLevel_bind fun hl => ?_
  rw [run_eq]
  refine bind_congr fun row => bind_congr fun v => ?_
  by_cases done : level ≤ (K.part.memory v).level K.id
  · rw [Stages.finish_done done, pure_bind]
    exact if_pos done
  · have undefined := Level.lt_of_lt_of_le (Level.lt_of_not_le done) hl
    rw [Stages.finish_undefined done undefined, if_pos hl, stages]
    simp only [bind_assoc, pure_bind]
    exact if_neg done

end WritingKind

open Writing (defining)

/-- How a member is written: where it is remembered, what it is called, the row that is found for it, its data if there are any, which rows are of the module, and what is done with such a row. -/
structure MemberWriting (δ κ : Type) where
  part : Writer.Part MemberIdentity
  what : String
  id : MemberIdentity
  row : Writing Row
  data : Option δ
  own : Row → Option κ
  define : δ → κ → Writing Unit

namespace MemberWriting

variable {δ κ : Type} {M : MemberWriting δ κ} {level : Level} {r : Row} {d : δ}

/-- The parts of writing it; `asked` is the level that is named when it is only a reference. -/
def kind (M : MemberWriting δ κ) (asked : Level) : WritingKind MemberIdentity where
  id := M.id
  part := M.part
  row := M.row
  defines := defining M.what M.id.name asked M.data M.own M.define
  completes _ := pure ()

/-- Writes a member at a level. -/
def write (M : MemberWriting δ κ) (level : Level) : Writing Row := (M.kind level).member level

/-- What is needed of a member: that its row is found again, and that its definition is written in place. -/
structure Lawful (M : MemberWriting δ κ) : Prop where
  row : Makes WriteState.Rises M.row
  recorded : ∀ {w r w'}, Gives M.row w r w' → (M.part.memory w'.writer).row? M.id = some r
  known : ∀ {w r}, (M.part.memory w.writer).row? M.id = some r → Gives M.row w r w
  define : ∀ {R}, Changing R → ∀ d k, Makes R (M.define d k)

theorem Lawful.kind (law : M.Lawful) (asked : Level) : (M.kind asked).Lawful where
  row := law.row
  recorded := law.recorded
  known := law.known
  defines m _ _ := Writing.makes_defining m.toLocating fun d k => law.define m d k
  completes _ := changing_rises.pure ()

theorem Lawful.rises (law : M.Lawful) (level : Level) : Makes WriteState.Rises (M.write level) := by
  rw [write, WritingKind.member_eq_stages]
  exact Writing.makes_checkLevel changing_rises.toLocating fun hl =>
    (law.kind level).run_rises (Level.le_trans hl (by decide))

/-- Writing a member goes through its stages, whatever level is named in a fault. -/
theorem performs (M : MemberWriting δ κ) :
    (M.kind .reference).stages.Performs (fun _ => True) .definition M.write := by
  intro l w r w' _
  rw [write, WritingKind.member_eq_stages]
  refine Stages.gives_checked.trans (and_congr_right fun _ => Stages.gives_run_congr rfl ?_ Iff.rfl)
  intros
  simp only [WritingKind.stages, kind, gives_bind, Writing.gives_defining]
  rfl

/-- What is written where it has not been written yet: the row is one of the module, and its definition is written. -/
theorem of_write_new (likewise : Makes (fun w w' => w.writer.Likewise w'.writer) M.row)
    (hd : M.data = some d) (hlevel : .definition ≤ level)
    (hnew : (M.part.memory w.writer).level M.id < .definition) (h : Gives (M.write level) w r w') :
    ∃ k w₁ w₂, Gives M.row w r w₁ ∧ M.own r = some k ∧ Gives (M.define d k) w₁ () w₂ ∧
      w'.store = w₂.store := by
  obtain ⟨-, h⟩ := Stages.gives_checked.1 h
  obtain ⟨r', w₁, hrow, h⟩ := gives_bind.1 h
  have same := M.part.likewise (likewise.gives hrow) M.id
  rw [gives_bind_writer, if_neg] at h
  · obtain ⟨_, w₂, hdefines, h⟩ := gives_bind.1 h
    obtain ⟨d', k, data, -, hown, hdefine⟩ := Writing.gives_defining.1 hdefines
    obtain ⟨_, w₃, hraise, h⟩ := gives_bind.1 h
    obtain ⟨rfl, rfl⟩ := gives_pure.1 h
    obtain rfl := WritingKind.gives_raise.1 hraise
    cases hd.symm.trans data
    exact ⟨k, w₁, w₂, hrow, hown, hdefine, rfl⟩
  · intro hle
    change level ≤ (M.part.memory w₁.writer).level M.id at hle
    rw [same] at hle
    exact Level.not_lt_of_le (Level.le_trans hlevel hle) hnew

end MemberWriting

/-! ### Types, fields and methods -/

section Kinds

variable (c : Catalog)

def fieldWriting (e : FieldEntity) : MemberWriting FieldData FieldId where
  part := .fields
  what := "Field"
  id := e.identity
  row := Writing.fieldRow c e.identity
  data := e.data?
  own | .fieldDef f => some f | _ => none
  define d f := Writing.defineField c f d

def methodWriting (e : MethodEntity) : MemberWriting MethodData MethodId where
  part := .methods
  what := "Method"
  id := e.identity
  row := Writing.methodRow c e.identity
  data := e.data?
  own | .methodDef m => some m | _ => none
  define d m := Writing.defineMethod c m d

/-- The types nested in a type are `depth` deep at most. -/
def typeWriting (depth : Nat) (e : TypeEntity) (asked : Level) : WritingKind TypeIdentity where
  id := e.identity
  part := .types
  row := Writing.typeRow e.identity
  defines := defining "Type" e.identity.name asked e.data?
    (fun | .typeDef t => some t | _ => none) fun d t => Writing.defineType c t d
  completes := defining "Type" e.identity.name asked e.data?
    (fun | .typeDef t => some t | _ => none) fun d t => do
      Writing.forPresent d.nestedTypes (Writing.nestTypes c depth t)
      Writing.defineMembers c t d

/-! ### Entities are written by stages -/

theorem field_eq_write (e : FieldEntity) (level : Level) :
    Writing.field c e level = (fieldWriting c e).write level := by
  rw [Writing.field_eq]
  refine bind_congr fun _ => bind_congr fun row => bind_congr fun v => if_congr Iff.rfl rfl ?_
  cases e with
  | reference id => rfl
  | definition id d => cases row <;> rfl

theorem method_eq_write (e : MethodEntity) (level : Level) :
    Writing.method c e level = (methodWriting c e).write level := by
  rw [Writing.method_eq]
  refine bind_congr fun _ => bind_congr fun row => bind_congr fun v => if_congr Iff.rfl rfl ?_
  cases e with
  | reference id => rfl
  | definition id d => cases row <;> rfl

variable {c} in
/-- What is left to write of a type after its definition. -/
theorem children_eq_completes {depth : Nat} {id : TypeIdentity} {d : TypeData} {t : TypeId}
    {level : Level} (hl : level ≤ .withChildren) :
    (do
      if level = .withChildren then
        Writing.forPresent d.nestedTypes fun ts => do
          let rows ← ts.mapM fun n => do Writing.typeWithin c depth (← Writing.lookUp c.types n) level
          let ns ← rows.mapM (Writing.nestedIn (← Writing.store) t)
          Writing.modifyStore (·.modifyType t fun l =>
            { l with nestedTypes := Writing.reordered ns l.nestedTypes })
        Writing.defineMembers c t d
        Writing.modifyWriter fun w => { w with types := w.types.atLevel id .withChildren }
      return Row.typeDef t) =
    (if level ≤ .definition then pure () else
      (typeWriting c depth (.definition id d) level).stages.completes () (.typeDef t)) >>= fun _ =>
        pure (Row.typeDef t) := by
  by_cases h : level ≤ .definition
  · rw [if_pos h, pure_bind]
    refine if_neg ?_
    rintro rfl
    exact absurd h (by decide)
  · rw [if_neg h]
    obtain rfl := Level.le_antisymm hl (Level.withChildren_le h)
    refine (if_pos rfl).trans ?_
    simp only [WritingKind.stages, typeWriting, defining, Entity.data?, bind_assoc]
    rfl

theorem typeWithin_eq_stages (depth : Nat) (e : TypeEntity) (level : Level) :
    Writing.typeWithin c (depth + 1) e level = Writing.checkLevel .withChildren level >>= fun _ =>
      (typeWriting c depth e level).stages.run level := by
  rw [Writing.typeWithin_eq]
  refine Writing.checkLevel_bind fun hl => ?_
  rw [WritingKind.run_eq]
  refine bind_congr fun row => bind_congr fun v => ?_
  -- already at the level, to be defined, or only to be completed: as the three stages have it
  by_cases done : level ≤ ((typeWriting c depth e level).part.memory v).level (typeWriting c depth e level).id
  · rw [Stages.finish_done done, pure_bind]
    exact if_pos done
  · refine (if_neg done).trans ?_
    by_cases undefined :
        ((typeWriting c depth e level).part.memory v).level (typeWriting c depth e level).id < .definition
    · rw [Stages.finish_undefined done undefined]
      cases e with
      | reference id => rfl
      | definition id d =>
          cases row with
          | typeDef t =>
              refine (if_pos undefined).trans ?_
              simp only [bind_assoc]
              refine Eq.trans ?_ (bind_assoc (Writing.defineType c t d) _ _).symm
              exact bind_congr fun _ => bind_congr fun _ => children_eq_completes hl
          | _ => rfl
    · rw [Stages.finish_defined done undefined]
      cases e with
      | reference id => rfl
      | definition id d =>
          cases row with
          | typeDef t =>
              have above : ¬ level ≤ .definition := fun h =>
                done (Level.le_trans h (Level.le_of_not_lt undefined))
              refine ((if_neg undefined).trans (children_eq_completes hl)).trans ?_
              rw [if_neg above]
              rfl
          | _ => rfl

/-! ### Nothing is forgotten -/

theorem fieldWriting_lawful (e : FieldEntity) : (fieldWriting c e).Lawful where
  row := changing_rises.fieldRow c _
  recorded := fieldRow_recorded
  known := gives_fieldRow_known
  define m d f := m.defineField c f d

theorem methodWriting_lawful (e : MethodEntity) : (methodWriting c e).Lawful where
  row := changing_rises.methodRow c _
  recorded := methodRow_recorded
  known := gives_methodRow_known
  define m d f := m.defineMethod c f d

theorem field_rises (e : FieldEntity) (level : Level) : Makes WriteState.Rises (Writing.field c e level) :=
  field_eq_write c e level ▸ (fieldWriting_lawful c e).rises level

theorem method_rises (e : MethodEntity) (level : Level) : Makes WriteState.Rises (Writing.method c e level) :=
  method_eq_write c e level ▸ (methodWriting_lawful c e).rises level

theorem fields_rises (ts : List Token) (level : Level) :
    Makes WriteState.Rises (Writing.fields c ts level) :=
  changing_rises.mapM (fun t => changing_rises.bind (changing_rises.lookUp _ t) fun _ =>
    field_rises c _ _) ts

theorem methods_rises (ts : List Token) (level : Level) :
    Makes WriteState.Rises (Writing.methods c ts level) :=
  changing_rises.mapM (fun t => changing_rises.bind (changing_rises.lookUp _ t) fun _ =>
    method_rises c _ _) ts

variable {c} in
theorem typeWriting_lawful {depth : Nat} (nested : ∀ e level,
    Makes WriteState.Rises (Writing.typeWithin c depth e level))
    (e : TypeEntity) (asked : Level) : (typeWriting c depth e asked).Lawful where
  row := changing_rises.typeRow _
  recorded := typeRow_recorded
  known := gives_typeRow_known
  defines m h _ := Writing.makes_defining m.toLocating fun d t => m.defineType c (fun w f => h w t f) d
  completes _ := by
    have m := changing_rises
    refine Writing.makes_defining m.toLocating fun d t => m.bind (m.forPresent fun ts => ?_) fun _ =>
      m.defineMembers c (fun _ _ _ => .refl _) (fields_rises c · _) (methods_rises c · _) d
    exact m.bind (m.mapM (fun k => m.bind (m.lookUp _ k) fun e => nested e _) ts) fun rows =>
      m.bind m.store fun s => m.bind (m.mapM (m.nestedIn s t) rows) fun _ =>
        Locating.modifyStore fun _ => .refl _

/-- Writing a type forgets nothing, whether it succeeds or fails; by induction on how deep types may be nested. -/
theorem typeWithin_rises (depth : Nat) (e : TypeEntity) (level : Level) :
    Makes WriteState.Rises (Writing.typeWithin c depth e level) := by
  induction depth generalizing e level with
  | zero => exact changing_rises.refl
  | succ depth ih =>
      rw [typeWithin_eq_stages]
      exact Writing.makes_checkLevel changing_rises.toLocating fun hl =>
        (typeWriting_lawful ih e level).run_rises hl

theorem serve_rises (q : Writer.Request) :
    Makes WriteState.Rises (Writer.serve c q) := by
  have one {x : Writing Row} (h : Makes WriteState.Rises x) :
      Makes WriteState.Rises (x >>= fun r => return [r]) :=
    changing_rises.bind h fun r => changing_rises.pure [r]
  cases q with
  | type e level => exact one (typeWithin_rises c _ e level)
  | field e level => exact one (field_rises c e level)
  | method e level => exact one (method_rises c e level)
  | types ts level =>
      exact changing_rises.mapM (fun t => changing_rises.bind (changing_rises.lookUp _ t) fun e =>
        typeWithin_rises c _ e level) ts
  | fields ts level => exact fields_rises c ts level
  | methods ts level => exact methods_rises c ts level

end Kinds

/-! ### Whatever is written -/

/-- A state after the requests, each for entities of a catalog, whether they are granted or refused. -/
def WriteState.afterAll (w : WriteState) (qs : List (Catalog × Writer.Request)) : WriteState :=
  qs.foldl (fun w q => (Writer.serve q.1 q.2 w).2) w

/-- Whatever a writer is asked for, the rows that it remembers stay and no level is lowered. -/
theorem WriteState.rises_afterAll (w : WriteState) (qs : List (Catalog × Writer.Request)) :
    w.Rises (w.afterAll qs) := by
  induction qs generalizing w with
  | nil => exact .refl _
  | cons q qs ih => exact (serve_rises q.1 q.2 w).trans (ih _)

namespace Writer

/-- An entity that is written at a level. -/
inductive Subject where
  | type (e : TypeEntity)
  | field (e : FieldEntity)
  | method (e : MethodEntity)

namespace Subject

def write (c : Catalog) : Subject → Level → Writing Row
  | .type e => Writing.type c e
  | .field e => Writing.field c e
  | .method e => Writing.method c e

/-- Entities of one kind whose identities are the same. -/
def Same : Subject → Subject → Prop
  | .type e, .type e' => Identity.same e.identity e'.identity = true
  | .field e, .field e' => Identity.same e.identity e'.identity = true
  | .method e, .method e' => Identity.same e.identity e'.identity = true
  | _, _ => False

variable (c c' : Catalog) {l l' : Level} {r : Row}

/-- Writing goes through the stages of its kind, whatever level is named in a fault. -/
theorem type_performs (e : TypeEntity) :
    (typeWriting c c.types.size e .reference).stages.Performs (fun _ => True) .withChildren
      (Writing.type c e) := by
  intro l w r w' _
  rw [Writing.type, typeWithin_eq_stages]
  refine Stages.gives_checked.trans (and_congr_right fun _ => Stages.gives_run_congr rfl ?_ ?_)
  all_goals
    intros
    simp only [WritingKind.stages, typeWriting, gives_bind, Writing.gives_defining]
    rfl

theorem field_performs (e : FieldEntity) :
    ((fieldWriting c e).kind .reference).stages.Performs (fun _ => True) .definition (Writing.field c e) :=
  funext (field_eq_write c e) ▸ (fieldWriting c e).performs

theorem method_performs (e : MethodEntity) :
    ((methodWriting c e).kind .reference).stages.Performs (fun _ => True) .definition (Writing.method c e) :=
  funext (method_eq_write c e) ▸ (methodWriting c e).performs

theorem typeWriting_type_lawful (e : TypeEntity) :
    (typeWriting c c.types.size e .reference).Lawful :=
  typeWriting_lawful (typeWithin_rises c _) e _

/-- Every subject is written by lawful stages. -/
theorem staged (x : Subject) :
    ∃ (S : Stages (Failure WriteFault) WriteState Unit Row) (On : WriteState → Unit → Row → Level → Prop)
      (highest : Level), S.Lawful (fun _ => True) WriteState.Rises On ∧
        highest ≤ .withChildren ∧ S.Performs (fun _ => True) highest (x.write c) := by
  cases x with
  | type e =>
      exact ⟨_, _, _, (typeWriting_type_lawful c e).stages, Level.le_refl _, type_performs c e⟩
  | field e =>
      exact ⟨_, _, _, ((fieldWriting_lawful c e).kind _).stages, by decide, field_performs c e⟩
  | method e =>
      exact ⟨_, _, _, ((methodWriting_lawful c e).kind _).stages, by decide, method_performs c e⟩

/-- What has been written as far as it is asked for is found, and that is all. -/
theorem again {x x' : Subject} (same : x.Same x') (h : Gives (x.write c l) w r w')
    (low : .reference ≤ l') (hl : l' ≤ l) (hg : w'.Rises w'') :
    Gives (x'.write c' l') w'' r w'' := by
  cases x with
  | type e =>
      cases x' with
      | type e' =>
          exact (typeWriting_type_lawful c e).again (typeWriting_type_lawful c' e') rfl same
            (Level.le_refl _) (type_performs c e) (type_performs c' e') h low hl hg
      | _ => exact same.elim
  | field e =>
      cases x' with
      | field e' =>
          exact ((fieldWriting_lawful c e).kind _).again ((fieldWriting_lawful c' e').kind _) rfl same
            (by decide) (field_performs c e) (field_performs c' e') h low hl hg
      | _ => exact same.elim
  | method e =>
      cases x' with
      | method e' =>
          exact ((methodWriting_lawful c e).kind _).again ((methodWriting_lawful c' e').kind _) rfl same
            (by decide) (method_performs c e) (method_performs c' e') h low hl hg
      | _ => exact same.elim

end Subject

/-- Whatever a writer is asked for after a state, whether it is granted or refused, the rows that it remembers stay and no level is lowered.  What it has written at a level it does not write again at that level or a lower one, whichever entity with that identity it is asked for, but gives the same row; the module and the writer stay as they are.  What it writes at any levels up to another, and then at that, is what it writes at the last level at once; module and writer end up the same, and each of the calls gives the row of the last. -/
theorem writes_repeated (w : WriteState) :
    (∀ qs, w.Rises (w.afterAll qs)) ∧
    ∀ (c : Catalog) (x : Subject) (l : Level),
      (∀ {r w'}, Gives (x.write c l) w r w' → ∀ (qs : List (Catalog × Request)) (c' : Catalog)
        {x' : Subject} {l' : Level}, x.Same x' → .reference ≤ l' → l' ≤ l →
          Gives (x'.write c' l') (w'.afterAll qs) r (w'.afterAll qs)) ∧
      ∀ (ls : List Level), (∀ l' ∈ ls, .reference ≤ l' ∧ l' ≤ l) → ∀ {rs w'},
        (Gives ((ls ++ [l]).mapM (x.write c)) w rs w' ↔
          ∃ r, Gives (x.write c l) w r w' ∧ rs = List.replicate (ls.length + 1) r) := by
  refine ⟨w.rises_afterAll, fun c x l => ⟨fun h qs c' _ _ same low hl => ?_, fun ls hls _ _ => ?_⟩⟩
  · exact Subject.again c c' same h low hl (WriteState.rises_afterAll _ qs)
  · obtain ⟨S, On, highest, law, top, performs⟩ := x.staged c
    exact performs.staged_iff law top trivial hls

/-! ### A type with a type and a field inside -/

def lodgeType : TypeEntity :=
  .definition ⟨"Lodge", "N", none, none⟩ { nestedTypes := some [.index 1], fields := some [.index 0] }

def lodge : Catalog where
  options := .default
  types := ⟨[(.index 0, lodgeType), (.index 1, .definition ⟨"Room", "N", none, some ["Lodge"]⟩ {})],
    by decide, rfl⟩
  fields := ⟨[(.index 0, .definition ⟨"door", .token (.index 0),
    .ofConvention .field [.int32 0, .ofElement .i4]⟩ {})], by decide, rfl⟩
  methods := .empty

/-- A new module and its writer. -/
def site : WriteState := ⟨(Store.empty.createImage "M").2, .start ⟨0⟩ ⟨none, none⟩⟩

/-- The type is written with what is inside, and a request that is refused follows.  A reference to it, with an empty list for the types around it, is found as it is.  By stages it is written the same. -/
theorem writes_repeated_lodge :
    ∃ r w', Gives ((Subject.type lodgeType).write lodge .withChildren) site r w' ∧
      w'.Rises (w'.afterAll [(lodge, .fields [.index 1] .definition)]) ∧
      Gives ((Subject.type (.reference ⟨"Lodge", "N", none, some []⟩)).write lodge .definition)
        (w'.afterAll [(lodge, .fields [.index 1] .definition)]) r
        (w'.afterAll [(lodge, .fields [.index 1] .definition)]) ∧
      Gives ([.reference, .definition, .withChildren].mapM ((Subject.type lodgeType).write lodge)) site
        [r, r, r] w' := by
  obtain ⟨r, h⟩ := gives_of_isOk (x := (Subject.type lodgeType).write lodge .withChildren) (a := site)
    (by decide +kernel)
  obtain ⟨-, calls⟩ := writes_repeated site
  obtain ⟨again, staged⟩ := calls lodge (.type lodgeType) .withChildren
  have same : Subject.Same (.type lodgeType) (.type (.reference ⟨"Lodge", "N", none, some []⟩)) := rfl
  refine ⟨r, _, h, (writes_repeated _).1 _, ?_, ?_⟩
  · exact again h [(lodge, .fields [.index 1] .definition)] lodge same (by decide) (by decide)
  · exact (staged [.reference, .definition] (by decide)).2 ⟨r, h, rfl⟩

end Writer

end CilCatalog
