import CilCatalog.Proofs.Copying.Alter
import CilCatalog.Proofs.Copying.Body

/-!
# Writing definitions
-/

namespace CilCatalog

open Live

/-- The reading of a body, if the options ask for it. -/
def Reading.optionalBody (s : Store) (b : Option Live.MethodBody) : Reading (Option MethodBody) := do
  if (← Reading.options).methodBodies then b.mapM (Reading.body s) else pure none

theorem Steady.optionalBody {m : Source} (s : Store) (b : Option Live.MethodBody) :
    Steady m (Reading.optionalBody s b) :=
  Steady.options.bind fun _ => .ite (.option_mapM _ (Steady.body s)) (.pure none)

theorem methodData_eq (s : Store) (d : MethodDef) :
    Reading.methodData s d = do
      let parameters ← d.params.mapM (Reading.parameter s)
      let overrides ← d.overrides.mapM (Reading.methodToken s)
      let genericParameters ← Reading.genericParameters s d.genericParams
      let customAttributes ← Reading.customAttributes s d.customAttributes
      let body ← Reading.optionalBody s d.body
      let implMap ← d.implMap.mapM (Reading.implMap d.name)
      return {
        attributes := Int32.ofNat d.attributes.toNat
        implAttributes := Int32.ofNat d.implAttributes.toNat
        overrides := Reading.nonempty overrides
        parameters, genericParameters, customAttributes, body, implMap } := by
  unfold Reading.methodData Reading.optionalBody
  simp only [bind_assoc]
  refine bind_congr fun _ => bind_congr fun _ => bind_congr fun _ => bind_congr fun _ =>
    bind_congr fun _ => ?_
  split <;> rfl

/-- The part of writing a method that is about its body. -/
def Writing.defineBody (c : Catalog) (m : MethodId) : Option MethodBody → Writing Unit
  | none   => pure ()
  | some b => do
      let b ← Writing.body c b
      Writing.modifyStore (·.modifyMethod m fun l => { l with body := some b })

theorem defineMethod_eq (c : Catalog) (m : MethodId) (d : MethodData) :
    Writing.defineMethod c m d = (do
      Writing.modifyStore (·.modifyMethod m fun l => { l with
        attributes := Writing.low16 d.attributes, implAttributes := Writing.low16 d.implAttributes })
      let params ← d.parameters.mapM (Writing.param c)
      Writing.modifyStore (·.modifyMethod m fun l => { l with params })
      Writing.defineBody c m d.body
      let overrides ← (d.overrides.getD []).mapM (Writing.methodOfToken c)
      Writing.modifyStore (·.modifyMethod m fun l => { l with overrides })
      let genericParams ← Writing.genericParams c d.genericParameters
      let customAttributes ← Writing.customAttributes c d.customAttributes
      let implMap ← d.implMap.mapM fun i => do
        return (⟨← Writing.moduleRow i.module, i.name, Writing.low16 i.attributes⟩ : Live.ImplMap)
      Writing.modifyStore (·.modifyMethod m fun l =>
        { l with genericParams, customAttributes, implMap })) := by
  unfold Writing.defineMethod
  cases d.body with
  | none => rfl
  | some b =>
      dsimp only [Writing.defineBody]
      simp only [bind_assoc]

namespace Copy

variable {C : Copy} {w w' w'' : WriteState} {row : Row} {k : Token}

/-- What is remembered of an identity gives its level. -/
theorem level_of_find? {ι : Type} [Identity ι] {m : Memory ι} {id : ι} {r : Written}
    (h : m.find? id = some r) : m.level id = r.level := by
  rw [Memory.level, h]
  rfl

/-! ### Fields -/

section Field

variable {id : MemberIdentity} {r : Written} {f f₀ : FieldId} {d : FieldData} {e : FieldEntity}

/-- A field that is given a definition is read as what the definition has been read from. -/
theorem defineField_written {u : Unit} (hw : C.Faithful .null w)
    (hr : w.writer.fields.find? id = some r) (hrow : r.row = .fieldDef f)
    (hl : ¬ .definition ≤ r.level) (hh : C.source.Has (C.source.store.fieldDef f₀).rows)
    (hd : Read C.source C.reader (Reading.fieldData C.source.store (C.source.store.fieldDef f₀)) d)
    (h : Gives (Writing.defineField C.catalog f d) w u w') :
    C.Faithful .null w' ∧ w.Step w' ∧ w'.writer.fields.find? id = some r ∧
      C.Echo w'.store (Reading.fieldData C.source.store (C.source.store.fieldDef f₀))
        (Reading.fieldData · (w'.store.fieldDef f)) := by
  obtain ⟨as, has, rfl⟩ := hd.of_bind_pure (.customAttributes _ _)
  obtain ⟨as', w₁, has', h⟩ := gives_bind.1 h
  have attributes := customAttributes_writes (Source.has_append.1 hh).2 has hw has'
  have hr₁ := attributes.step.fields hr
  obtain ⟨hw', hst, hwriter, heq⟩ := attributes.faithful.alterField hr₁ hrow hl h fun _ => rfl
  refine ⟨hw', attributes.step.step.trans hst, by rw [hwriter, hr₁], ?_⟩
  rw [heq]
  exact (attributes.map_congr fun _ => by simp).echo.extends hst.store

/-- The rows of a field whose identity has been read are those of the module. -/
theorem has_of_fieldIdentity
    (h : Read C.source C.reader (Reading.fieldIdentity C.source.store f₀) id) :
    C.source.Has (C.source.store.fieldDef f₀).rows := by
  obtain ⟨t, ht, -⟩ := h.of_bind (.declaringType _ _ _ _) fun _ => .memberIdentity _ _ _ _
  obtain ⟨hd, hi⟩ := ht.of_declaringType
  exact Source.has_field hi hd

/-- A field that is written with its definition is remembered as defined. -/
theorem field_written (he : C.catalog.fields.get? k = some e)
    (hid : Read C.source C.reader (Reading.fieldIdentity C.source.store f₀) e.identity)
    (hw : C.Faithful .null w) (h : Gives (Writing.field C.catalog e .definition) w row w') :
    C.Faithful .null w' ∧ w.Step w' ∧
      ∃ r, w'.writer.fields.find? e.identity = some r ∧ r.row = row ∧ .definition ≤ r.level := by
  rw [Writing.field_eq] at h
  rw [show Writing.checkLevel .definition .definition = pure () from if_neg (by decide), pure_bind] at h
  obtain ⟨row₁, w₁, hrow, h⟩ := gives_bind.1 h
  obtain ⟨hw₁, hst, -, -, r, hr, rfl⟩ := fieldRow_stands ⟨_, .defined f₀, hid⟩ hw hrow
  rw [gives_bind_writer, level_of_find? hr] at h
  split at h
  · next hle =>
      obtain ⟨rfl, rfl⟩ := gives_pure.1 h
      exact ⟨hw₁, hst.step, r, hr, rfl, hle⟩
  · next hle =>
      cases e with
      | reference id => exact absurd h gives_refuseWrite
      | definition id d =>
          obtain ⟨f₁, hid₁, hd₁⟩ := C.recorded.fields he
          dsimp only [Entity.data?] at h
          obtain ⟨-, h⟩ := gives_bind_askable.1 h
          split at h
          · next f hf =>
              obtain ⟨u, w₂, hu, h⟩ := gives_bind.1 h
              rw [gives_bind_modifyWriter] at h
              obtain ⟨rfl, rfl⟩ := gives_pure.1 h
              obtain ⟨hw₂, hst₂, hr₂, -⟩ :=
                defineField_written hw₁ hr hf hle (has_of_fieldIdentity hid₁) hd₁ hu
              obtain ⟨hw₃, hst₃, r', hr', hrow', hl'⟩ := hw₂.levelField hr₂ hf
                (Level.le_of_lt (Int32.not_le.1 hle)) fun hk' f₂ hh₂ hd₂ => by
                  cases C.sound.fields.entity_unique he hk' rfl
                  exact (defineField_written hw₁ hr hf hle hh₂ hd₂ hu).2.2.2
              exact ⟨hw₃, hst.step.trans (hst₂.trans hst₃), r', hr', hrow'.trans hf.symm, hl'⟩
          · rw [gives_bind_store, gives_bind_writer] at h
            exact absurd h gives_refuseWrite

end Field

/-! ### Methods -/

section Method

variable {id : MemberIdentity} {r : Written} {f f₀ : MethodId} {d : MethodData} {l : MethodDef}
  {e : MethodEntity} {u : Unit}

variable (C) in
/-- A method that is remembered and not defined yet says `l`. -/
structure MethodStage (w : WriteState) (id : MemberIdentity) (r : Written) (f : MethodId)
    (l : MethodDef) (w' : WriteState) : Prop where
  faithful : C.Faithful .null w'
  step : w.Step w'
  found : w'.writer.methods.find? id = some r
  row : r.row = .methodDef f
  level : ¬ .definition ≤ r.level
  contents : w'.store.methodDef f = l

namespace MethodStage

theorem start (hw : C.Faithful .null w) (hr : w.writer.methods.find? id = some r)
    (hrow : r.row = .methodDef f) (hl : ¬ .definition ≤ r.level) :
    C.MethodStage w id r f (w.store.methodDef f) w :=
  ⟨hw, .refl w, hr, hrow, hl, rfl⟩

theorem refers {w₁ : WriteState} (h : C.MethodStage w id r f l w₁) (hw' : C.Faithful .null w')
    (hs : w₁.Refers w') : C.MethodStage w id r f l w' :=
  ⟨hw', h.step.trans hs.step, hs.methods h.found, h.row, h.level,
    (hs.methodDefs f (h.faithful.remembered.method_lt h.found h.row)).trans h.contents⟩

theorem alter {w₁ : WriteState} {F : MethodDef → MethodDef} (h : C.MethodStage w id r f l w₁)
    (hg : Gives (Writing.modifyStore (·.modifyMethod f F)) w₁ u w') (hF : ∀ d, (F d).head = d.head)
    (hb : ∀ {k d}, C.catalog.methods.get? k = some (.definition id d) → d.body = none →
      ∀ l, l.body = none → (F l).body = none) :
    C.MethodStage w id r f (F l) w' ∧ w₁.store.Extends w'.store := by
  obtain ⟨hw', hst, hwriter, heq⟩ := h.faithful.alterMethod h.found h.row h.level hg hF hb
  exact ⟨⟨hw', h.step.trans hst, by rw [hwriter, h.found], h.row, h.level, by rw [heq, h.contents]⟩,
    hst.store⟩

end MethodStage

/-- The row of a module that is written has its name. -/
theorem moduleRow_written {name : Bytes} (hw : C.Faithful .null w)
    (h : Gives (Writing.moduleRow name) w row w') :
    C.Faithful .null w' ∧ w.Refers w' ∧ ∃ n, row = .moduleRef n name := by
  unfold Writing.moduleRow at h
  rw [gives_bind_store, gives_bind_writer] at h
  split at h
  · next r hfind =>
      obtain ⟨rfl, rfl⟩ := gives_pure.1 h
      have hname := List.find?_some hfind
      cases row with
      | moduleRef n name' =>
          obtain rfl : name' = name := beq_iff_eq.1 hname
          exact ⟨hw, .refl _, n, rfl⟩
      | _ => exact nomatch hname
  · obtain ⟨rfl, rfl⟩ := gives_making.1 h
    rw [hw.image]
    obtain ⟨hw', hst⟩ := hw.furnish (furnishes_modifyImage hw.ground (.moduleRef · name)
      (f := fun m => { m with moduleRefs := m.moduleRefs ++ [.moduleRef w.store.nextRow name] })
      (fun _ => rfl) (fun _ => rfl) fun _ => rfl)
    exact ⟨hw', hst.toRefers, _, rfl⟩

/-- A body that is written, where there is one, is read as the original. -/
theorem optionalBody_writes {b₀ : Option Live.MethodBody} {q : MethodBody} {b : Live.MethodBody}
    (hr : C.source.Has (b₀.toList.flatMap MethodBody.rows))
    (hq : Read C.source C.reader (Reading.optionalBody C.source.store b₀) (some q))
    (hw : C.Faithful .null w) (h : Gives (Writing.body C.catalog q) w b w') :
    C.Writes w w' (Reading.optionalBody C.source.store b₀) (Reading.optionalBody · (some b)) := by
  obtain ⟨o, ho, hq⟩ := hq.of_bind .options fun _ => .ite (.option_mapM _ (Steady.body _)) (.pure _)
  obtain rfl := ho.of_options
  refine Writes.options ?_
  split at hq
  · next hon =>
      obtain ⟨-, hno⟩ | ⟨b₁, q', rfl, hsome, hq⟩ := hq.of_option_mapM (Steady.body _)
      · exact nomatch hno
      · cases hsome
        have body := body_writes (Source.has_flatMap.1 hr b₁ (List.mem_singleton.2 rfl)) hq hw h
        simp only [if_pos hon]
        exact body.map some
  · exact nomatch hq.of_pure

/-- A method without a body is read like an original whose body is not on record. -/
theorem optionalBody_none {σ : Store} {b₀ : Option Live.MethodBody}
    (hq : Read C.source C.reader (Reading.optionalBody C.source.store b₀) none) :
    C.Echo σ (Reading.optionalBody C.source.store b₀) (Reading.optionalBody · none) := by
  obtain ⟨o, ho, hq⟩ := hq.of_bind .options fun _ => .ite (.option_mapM _ (Steady.body _)) (.pure _)
  obtain rfl := ho.of_options
  intro σ' _
  refine .options_bind ?_
  split at hq
  · next hon =>
      obtain ⟨rfl, -⟩ | ⟨_, _, -, hno, -⟩ := hq.of_option_mapM (Steady.body _)
      · simp only [if_pos hon]
        exact .pure none
      · exact nomatch hno
  · next hoff =>
      simp only [if_neg hoff]
      exact .pure none

/-- The native library of a method that is written is read as the original. -/
theorem implMap_writes {i₀ i : Option Live.ImplMap} {q : Option ImplMap} {name₀ : Bytes}
    (name : Bytes) (hq : Read C.source C.reader (i₀.mapM (Reading.implMap name₀)) q) (hw : C.Faithful .null w)
    (h : Gives (q.mapM fun i => do
      return (⟨← Writing.moduleRow i.module, i.name, Writing.low16 i.attributes⟩ : Live.ImplMap)) w i w') :
    C.Writes w w' (i₀.mapM (Reading.implMap name₀)) fun _ => i.mapM (Reading.implMap name) := by
  obtain ⟨rfl, rfl⟩ | ⟨j₀, j, rfl, rfl, hj⟩ := hq.of_option_mapM (Steady.implMap _)
  · obtain ⟨rfl, rfl⟩ := gives_pure.1 h
    exact .refl hw none
  · obtain ⟨i', hi', rfl⟩ := gives_map.1 h
    obtain ⟨r, hr, rfl⟩ := gives_bind_pure.1 hi'
    obtain ⟨m₀, name', attributes⟩ := j₀
    cases m₀ with
    | moduleRef n₀ module =>
        obtain rfl := hj.of_pure
        obtain ⟨hw', hst, n, rfl⟩ := moduleRow_written hw hr
        refine ⟨hw', hst, fun σ' _ => Follows.map ?_ some⟩
        rw [Reading.implMap, Reading.implMap, low16_ofNat]
        exact .pure _
    | _ => exact absurd hj Read.not_refuse

/-- A method that is given its body is read like the original, and one without keeps none. -/
theorem defineBody_written {b₀ : Option Live.MethodBody} {w₁ : WriteState}
    (hr : C.source.Has (b₀.toList.flatMap MethodBody.rows))
    (hk : C.catalog.methods.get? k = some (.definition id d))
    (hq : Read C.source C.reader (Reading.optionalBody C.source.store b₀) d.body)
    (hw : C.MethodStage w id r f l w₁) (h : Gives (Writing.defineBody C.catalog f d.body) w₁ u w') :
    ∃ b, C.MethodStage w id r f { l with body := b } w' ∧ w₁.store.Extends w'.store ∧
      C.Echo w'.store (Reading.optionalBody C.source.store b₀) (Reading.optionalBody · b) := by
  cases hbody : d.body with
  | none =>
      rw [hbody] at hq h
      obtain ⟨-, rfl⟩ := gives_pure.1 h
      have hnone := hw.faithful.copied.bodies hw.found hw.row hk hbody
      refine ⟨none, ?_, .refl _, optionalBody_none hq⟩
      rw [hw.contents] at hnone
      rw [← hnone]
      exact hw
  | some q =>
      rw [hbody] at hq h
      obtain ⟨b, w₂, hb, h⟩ := gives_bind.1 h
      have body := optionalBody_writes hr hq hw.faithful hb
      obtain ⟨hw', hext⟩ := (hw.refers body.faithful body.step).alter h (fun _ => rfl) fun hk' hd' => by
        cases C.sound.methods.entity_unique hk hk' rfl
        rw [hbody] at hd'
        exact nomatch hd'
      exact ⟨some b, hw', body.step.store.trans hext, body.echo.extends hext⟩

/-- A method that is given a definition is read as what the definition has been read from. -/
theorem defineMethod_written (hw : C.Faithful .null w) (hr : w.writer.methods.find? id = some r)
    (hrow : r.row = .methodDef f) (hl : ¬ .definition ≤ r.level)
    (hk : C.catalog.methods.get? k = some (.definition id d))
    (hh : C.source.Has (C.source.store.methodDef f₀).rows)
    (hd : Read C.source C.reader (Reading.methodData C.source.store (C.source.store.methodDef f₀)) d)
    (h : Gives (Writing.defineMethod C.catalog f d) w u w') :
    C.Faithful .null w' ∧ w.Step w' ∧ w'.writer.methods.find? id = some r ∧
      C.Echo w'.store (Reading.methodData C.source.store (C.source.store.methodDef f₀))
        (Reading.methodData · (w'.store.methodDef f)) := by
  -- what the data is made of
  simp only [methodData_eq] at hd ⊢
  have last : ∀ (ps : List Parameter) (os : List Token) (gs : Option (List GenericParameter))
      (as : Option (List CustomAttribute)) (b : Option MethodBody), Steady C.source (do
        let i ← (C.source.store.methodDef f₀).implMap.mapM
          (Reading.implMap (C.source.store.methodDef f₀).name)
        return ({
          attributes := Int32.ofNat (C.source.store.methodDef f₀).attributes.toNat
          implAttributes := Int32.ofNat (C.source.store.methodDef f₀).implAttributes.toNat
          overrides := Reading.nonempty os
          parameters := ps, genericParameters := gs, customAttributes := as, body := b
          implMap := i } : MethodData)) :=
    fun _ _ _ _ _ => (Steady.option_mapM _ (Steady.implMap _)).bind fun _ => .pure _
  obtain ⟨ps, hps, hd⟩ := hd.of_bind (.mapM _ (Steady.parameter _)) fun _ =>
    (Steady.mapM _ (Steady.methodToken _)).bind fun _ => (Steady.genericParameters _ _).bind fun _ =>
      (Steady.customAttributes _ _).bind fun _ => (Steady.optionalBody _ _).bind fun _ => last _ _ _ _ _
  obtain ⟨os, hos, hd⟩ := hd.of_bind (.mapM _ (Steady.methodToken _)) fun _ =>
    (Steady.genericParameters _ _).bind fun _ => (Steady.customAttributes _ _).bind fun _ =>
      (Steady.optionalBody _ _).bind fun _ => last _ _ _ _ _
  obtain ⟨gs, hgs, hd⟩ := hd.of_bind (.genericParameters _ _) fun _ =>
    (Steady.customAttributes _ _).bind fun _ => (Steady.optionalBody _ _).bind fun _ => last _ _ _ _ _
  obtain ⟨as, has, hd⟩ := hd.of_bind (.customAttributes _ _) fun _ =>
    (Steady.optionalBody _ _).bind fun _ => last _ _ _ _ _
  obtain ⟨b, hb, hd⟩ := hd.of_bind (.optionalBody _ _) fun _ => last _ _ _ _ _
  obtain ⟨i, hi, rfl⟩ := hd.of_bind_pure (.option_mapM _ (Steady.implMap _))
  obtain ⟨hh, hasAttributes⟩ := Source.has_append.1 hh
  obtain ⟨hh, hasGenerics⟩ := Source.has_append.1 hh
  obtain ⟨hh, hasOverrides⟩ := Source.has_append.1 hh
  obtain ⟨hh, hasBody⟩ := Source.has_append.1 hh
  obtain ⟨-, hasParams⟩ := Source.has_append.1 hh
  -- and what is written for it
  rw [defineMethod_eq] at h
  obtain ⟨_, w₁, h₁, h⟩ := gives_bind.1 h
  obtain ⟨ps', w₂, h₂, h⟩ := gives_bind.1 h
  obtain ⟨_, w₃, h₃, h⟩ := gives_bind.1 h
  obtain ⟨_, w₄, h₄, h⟩ := gives_bind.1 h
  obtain ⟨os', w₅, h₅, h⟩ := gives_bind.1 h
  obtain ⟨_, w₆, h₆, h⟩ := gives_bind.1 h
  obtain ⟨gs', w₇, h₇, h⟩ := gives_bind.1 h
  obtain ⟨as', w₈, h₈, h⟩ := gives_bind.1 h
  obtain ⟨i', w₉, h₉, h⟩ := gives_bind.1 h
  obtain ⟨s₁, -⟩ := (MethodStage.start hw hr hrow hl).alter h₁ (fun _ => rfl) fun _ _ _ hb => hb
  obtain ⟨hw₂, hst₂, params⟩ := Writes.mapM (h := fun p σ => Reading.parameter σ p)
    (hps.of_mapM (Steady.parameter _))
    (fun hmem hq hw h => param_writes (Source.has_flatMap.1 hasParams _ hmem) hq hw h) s₁.faithful h₂
  obtain ⟨s₃, e₃⟩ := (s₁.refers hw₂ hst₂).alter h₃ (fun _ => rfl) fun _ _ _ hb => hb
  obtain ⟨b', s₄, e₄, body⟩ := defineBody_written hasBody hk hb s₃ h₄
  rw [Writes.nonempty_getD] at h₅
  obtain ⟨hw₅, hst₅, overrides⟩ := Writes.mapM (h := fun r σ => Reading.methodToken σ r)
    (hos.of_mapM (Steady.methodToken _))
    (fun hmem hq hw h => (methodOfToken_writes (Source.has_flatMap.1 hasOverrides _ hmem) hq hw h).1)
    s₄.faithful h₅
  obtain ⟨s₆, e₆⟩ := (s₄.refers hw₅ hst₅).alter h₆ (fun _ => rfl) fun _ _ _ hb => hb
  have generics := genericParams_writes hasGenerics hgs s₆.faithful h₇
  have attributes := customAttributes_writes hasAttributes has generics.faithful h₈
  have map := implMap_writes (w.store.methodDef f).name hi attributes.faithful h₉
  obtain ⟨s₁₀, e₁₀⟩ := (((s₆.refers generics.faithful generics.step).refers attributes.faithful
    attributes.step).refers map.faithful map.step).alter h (fun _ => rfl) fun _ _ _ hb => hb
  refine ⟨s₁₀.faithful, s₁₀.step, s₁₀.found, ?_⟩
  have ext₉ := map.step.store.trans e₁₀
  have ext₆ := generics.step.store.trans (attributes.step.store.trans ext₉)
  have ext₄ := hst₅.store.trans (e₆.trans ext₆)
  have ext₂ := e₃.trans (e₄.trans ext₄)
  rw [s₁₀.contents]
  simp only [low16_ofNat]
  exact (Echo.mapM (params.imp fun _ _ h => h.extends ext₂)).bind fun _ =>
    (Echo.mapM (overrides.imp fun _ _ h => h.extends (e₆.trans ext₆))).bind fun _ =>
      (generics.echo.extends (attributes.step.store.trans ext₉)).bind fun _ =>
        (attributes.echo.extends ext₉).bind fun _ => (body.extends ext₄).bind fun _ =>
          (map.echo.extends e₁₀).bind fun _ => .pure _

/-- The rows of a method whose identity has been read are those of the module. -/
theorem has_of_methodIdentity
    (h : Read C.source C.reader (Reading.methodIdentity C.source.store f₀) id) :
    C.source.Has (C.source.store.methodDef f₀).rows := by
  obtain ⟨t, ht, -⟩ := h.of_bind (.declaringType _ _ _ _) fun _ => .memberIdentity _ _ _ _
  obtain ⟨hd, hi⟩ := ht.of_declaringType
  exact Source.has_method hi hd

/-- A method that is written with its definition is remembered as defined. -/
theorem method_written (he : C.catalog.methods.get? k = some e)
    (hid : Read C.source C.reader (Reading.methodIdentity C.source.store f₀) e.identity)
    (hw : C.Faithful .null w) (h : Gives (Writing.method C.catalog e .definition) w row w') :
    C.Faithful .null w' ∧ w.Step w' ∧
      ∃ r, w'.writer.methods.find? e.identity = some r ∧ r.row = row ∧ .definition ≤ r.level := by
  rw [Writing.method_eq] at h
  rw [show Writing.checkLevel .definition .definition = pure () from if_neg (by decide), pure_bind] at h
  obtain ⟨row₁, w₁, hrow, h⟩ := gives_bind.1 h
  obtain ⟨hw₁, hst, -, -, r, hr, rfl⟩ := methodRow_stands ⟨_, .defined f₀, hid⟩ hw hrow
  rw [gives_bind_writer, level_of_find? hr] at h
  split at h
  · next hle =>
      obtain ⟨rfl, rfl⟩ := gives_pure.1 h
      exact ⟨hw₁, hst.step, r, hr, rfl, hle⟩
  · next hle =>
      cases e with
      | reference id => exact absurd h gives_refuseWrite
      | definition id d =>
          obtain ⟨f₁, hid₁, hd₁⟩ := C.recorded.methods he
          dsimp only [Entity.data?] at h
          obtain ⟨-, h⟩ := gives_bind_askable.1 h
          split at h
          · next f hf =>
              obtain ⟨u, w₂, hu, h⟩ := gives_bind.1 h
              rw [gives_bind_modifyWriter] at h
              obtain ⟨rfl, rfl⟩ := gives_pure.1 h
              obtain ⟨hw₂, hst₂, hr₂, -⟩ :=
                defineMethod_written hw₁ hr hf hle he (has_of_methodIdentity hid₁) hd₁ hu
              obtain ⟨hw₃, hst₃, r', hr', hrow', hl'⟩ := hw₂.levelMethod hr₂ hf
                (Level.le_of_lt (Int32.not_le.1 hle)) fun hk' f₂ hh₂ hd₂ => by
                  cases C.sound.methods.entity_unique he hk' rfl
                  exact (defineMethod_written hw₁ hr hf hle he hh₂ hd₂ hu).2.2.2
              exact ⟨hw₃, hst.step.trans (hst₂.trans hst₃), r', hr', hrow'.trans hf.symm, hl'⟩
          · rw [gives_bind_store, gives_bind_writer] at h
            exact absurd h gives_refuseWrite

end Method

end Copy

end CilCatalog
