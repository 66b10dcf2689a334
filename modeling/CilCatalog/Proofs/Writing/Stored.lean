import CilCatalog.Proofs.Writing.Numbers
import CilCatalog.Proofs.Writing.Repeated
import CilCatalog.Proofs.Writing.Stays

/-!
# Numbers that are written

What a writer puts into a module for the numbers of a definition is these numbers, cut to the width that the module has for them; only the size of a stack is checked.  So the numbers that are read again are those of the catalog if the module has room for them, and not otherwise (`WriteState.Sound.numbers`).

* `FieldData.Stored` and the like: the numbers of a definition are in a module, cut.
* `stored_of_defineField` and the like: what the parts of a writer put there.
* `WriteState.Sound.numbers`: what is there in the end.
-/

namespace CilCatalog

open Live

/-! ### What is stored -/

/-- The numbers of a field are what they become in the module, and are read so. -/
def FieldData.Stored (d : FieldData) (s : Store) (f : FieldId) : Prop :=
  d.numbers.Become (s.fieldDef f).numbers ∧
    ∀ {ρ x ρ'}, Gives (Reading.fieldData s (s.fieldDef f)) ρ x ρ' → d.numbers.Become x.numbers

/-- The numbers of a method are what they become in the module, and are read so.  The size of the stack stays as it is. -/
structure MethodData.Stored (d : MethodData) (s : Store) (k : MethodId) : Prop where
  numbers : d.numbers.Become (s.methodDef k).numbers
  maxStack : ∀ {b}, d.body = some b →
    ∃ l, (s.methodDef k).body = some l ∧ wide l.maxStack = b.maxStack
  read : ∀ {ρ x ρ'}, Gives (Reading.methodData s (s.methodDef k)) ρ x ρ' →
    d.numbers.Become x.numbers ∧
      ∀ {b y}, d.body = some b → x.body = some y → y.maxStack = b.maxStack

/-- The numbers of a type are what they become in the module, and are read so. -/
def TypeData.Stored (d : TypeData) (s : Store) (t : TypeId) : Prop :=
  d.numbers.Become (s.typeDef t).numbers ∧
    ∀ {ρ x ρ'}, Gives (Reading.typeData s (s.typeDef t)) ρ x ρ' → d.numbers.Become x.numbers

/-- So are those of the properties and events of a type, if it has any. -/
structure TypeData.ChildrenStored (d : TypeData) (s : Store) (t : TypeId) : Prop where
  properties : ∀ {ps}, d.properties = some ps →
    (Numbers.ofProperties ps).Become (s.typeDef t).propertyNumbers ∧
      ∀ {ρ qs ρ'}, Gives ((s.typeDef t).properties.mapM (Reading.property s)) ρ qs ρ' →
        (Numbers.ofProperties ps).Become (.ofProperties qs)
  events : ∀ {es}, d.events = some es →
    (Numbers.ofEvents es).Become (s.typeDef t).eventNumbers ∧
      ∀ {ρ qs ρ'}, Gives ((s.typeDef t).events.mapM (Reading.event s)) ρ qs ρ' →
        (Numbers.ofEvents es).Become (.ofEvents qs)

section Stored

variable {s : Store}

theorem FieldData.stored_of_eq {d : FieldData} {f : FieldId}
    (h : (s.fieldDef f).numbers = d.numbers.cut) : d.Stored s f :=
  ⟨.of_eq h, fun hx => .of_eq ((numbers_of_fieldData hx).trans h)⟩

theorem MethodData.stored_of_eq {d : MethodData} {k : MethodId}
    (h : (s.methodDef k).numbers = d.numbers.cut)
    (hb : ∀ {b}, d.body = some b → ∃ l, (s.methodDef k).body = some l ∧ wide l.maxStack = b.maxStack) :
    d.Stored s k := by
  refine ⟨.of_eq h, hb, fun hx => ?_⟩
  obtain ⟨hnumbers, hstack⟩ := numbers_of_methodData hx
  refine ⟨.of_eq (hnumbers.trans h), fun {b y} hd hy => ?_⟩
  obtain ⟨l, hl, heq⟩ := hb hd
  exact (hstack l y hl hy).trans heq

theorem TypeData.stored_of_eq {d : TypeData} {t : TypeId}
    (h : (s.typeDef t).numbers = d.numbers.cut) : d.Stored s t :=
  ⟨.of_eq h, fun hx => .of_eq ((numbers_of_typeData hx).trans h)⟩

end Stored

/-! ### Fields and methods -/

section Members

variable {c : Catalog} {w w' : WriteState} {u : Unit}

theorem numbers_of_defineField {f : FieldId} {d : FieldData} (hf : w.store.There (.fieldDef f))
    (h : Gives (Writing.defineField c f d) w u w') :
    w'.store.There (.fieldDef f) ∧ (w'.store.fieldDef f).numbers = d.numbers.cut := by
  obtain ⟨as, w₁, has, h⟩ := gives_bind.1 h
  have hf₁ := hf.more ((Store.making_noLess.customAttributes c _).gives has)
  obtain rfl := gives_modifyStore.1 h
  refine ⟨Nat.lt_of_lt_of_eq hf₁ (Store.length_modifyField f _).symm, ?_⟩
  change ((w₁.store.modifyField f _).fieldDef f).numbers = _
  rw [Store.fieldDef_modifyField hf₁]
  rfl

/-- A method is there and says something. -/
def Says (w : WriteState) (k : MethodId) (l : MethodDef) : Prop :=
  k.index < w.store.methodDefs.length ∧ w.store.methodDef k = l

variable {k : MethodId} {l : MethodDef}

theorem Says.stays (h : Says w k l) (hs : w.store.MethodStays k w'.store) : Says w' k l :=
  ⟨(hs h.1).1, (hs h.1).2.trans h.2⟩

theorem Says.modify {F : MethodDef → MethodDef} (h : Says w k l)
    (hg : Gives (Writing.modifyStore (·.modifyMethod k F)) w u w') : Says w' k (F l) := by
  obtain ⟨hk, rfl⟩ := h
  obtain rfl := gives_modifyStore.1 hg
  exact ⟨Nat.lt_of_lt_of_eq hk (Store.length_modifyMethod k F).symm, Store.methodDef_modifyMethod hk⟩

/-- A method that is written with a body gets one with a stack of the same size. -/
theorem Says.defineBody {o : Option MethodBody} (h : Says w k l)
    (hg : Gives (Writing.defineBody c k o) w u w') : ∃ o', Says w' k { l with body := o' } ∧
      ∀ {b}, o = some b → ∃ b', o' = some b' ∧ wide b'.maxStack = b.maxStack := by
  cases o with
  | none =>
      obtain ⟨-, rfl⟩ := gives_pure.1 hg
      exact ⟨l.body, h, nofun⟩
  | some b =>
      obtain ⟨b', w₁, hb, hg⟩ := gives_bind.1 hg
      refine ⟨some b', (h.stays (((making_methodStays k).body c b).gives hb)).modify hg, ?_⟩
      rintro _ ⟨⟩
      exact ⟨b', rfl, maxStack_of_body_written hb⟩

theorem numbers_of_defineMethod {d : MethodData} (hk : w.store.There (.methodDef k))
    (h : Gives (Writing.defineMethod c k d) w u w') :
    w'.store.There (.methodDef k) ∧ (w'.store.methodDef k).numbers = d.numbers.cut ∧
      ∀ {b}, d.body = some b →
        ∃ l, (w'.store.methodDef k).body = some l ∧ wide l.maxStack = b.maxStack := by
  have making := making_methodStays k
  rw [defineMethod_eq] at h
  obtain ⟨_, w₁, h₁, h⟩ := gives_bind.1 h
  obtain ⟨ps, w₂, h₂, h⟩ := gives_bind.1 h
  obtain ⟨_, w₃, h₃, h⟩ := gives_bind.1 h
  obtain ⟨_, w₄, h₄, h⟩ := gives_bind.1 h
  obtain ⟨os, w₅, h₅, h⟩ := gives_bind.1 h
  obtain ⟨_, w₆, h₆, h⟩ := gives_bind.1 h
  obtain ⟨gs, w₇, h₇, h⟩ := gives_bind.1 h
  obtain ⟨as, w₈, h₈, h⟩ := gives_bind.1 h
  obtain ⟨i, w₉, h₉, h⟩ := gives_bind.1 h
  have s₁ : Says w₁ k _ := Says.modify ⟨hk, rfl⟩ h₁
  have s₃ := (s₁.stays ((making.mapM (making.param c) _).gives h₂)).modify h₃
  obtain ⟨o, s₄, hbody⟩ := s₃.defineBody h₄
  have s₆ := (s₄.stays ((making.mapM (making.methodOfToken c) _).gives h₅)).modify h₆
  have s₇ := s₆.stays ((making.genericParams c _).gives h₇)
  have s₈ := s₇.stays ((making.customAttributes c _).gives h₈)
  obtain ⟨there, heq⟩ := (s₈.stays ((making.optional making.implMap _).gives h₉)).modify h
  have implMap : i.toList.map (wide ·.attributes) = (d.implMap.toList.map ImplMap.attributes).map cut16 := by
    rw [List.map_map]
    refine toList_of_gives (fun {a b w w'} hb => ?_) h₉
    obtain ⟨_, -, rfl⟩ := gives_bind_pure.1 hb
    rfl
  refine ⟨there, ?_, fun hb => ?_⟩
  · rw [heq, MethodDef.numbers, MethodData.numbers, Numbers.cut, numbers_of_params h₂,
      numbers_of_genericParams h₇, implMap]
    rfl
  · rw [heq]
    exact hbody hb

end Members

/-! ### Types -/

section Types

variable {c : Catalog} {w w' : WriteState} {u : Unit} {t : TypeId} {d : TypeData}

theorem memberFree_numbers : MemberFree TypeDef.numbers := fun _ _ _ _ => rfl

theorem memberFree_propertyNumbers : MemberFree TypeDef.propertyNumbers := fun _ _ _ _ => rfl

theorem stays_of_defineBase {β : Type} {said : TypeDef → β} {o : Option SigTree}
    (hsaid : MemberFree said) (hbase : ∀ d r, said { d with baseType := r } = said d)
    (h : Gives (Writing.defineBase c t o) w u w') : w.store.TypeStays said t w'.store := by
  cases o with
  | none =>
      obtain ⟨-, rfl⟩ := gives_pure.1 h
      exact .of_eq rfl
  | some tree =>
      obtain ⟨r, w₁, hr, h⟩ := gives_bind.1 h
      refine (((defining_typeStays hsaid t).rowOfTree c tree).gives hr).trans ?_
      obtain rfl := gives_modifyStore.1 h
      exact .modifyType fun d => hbase d r

theorem numbers_of_defineType (ht : w.store.There (.typeDef t))
    (h : Gives (Writing.defineType c t d) w u w') :
    w'.store.There (.typeDef t) ∧ (w'.store.typeDef t).numbers = d.numbers.cut := by
  have hfree : MemberFree TypeDef.attributes := fun _ _ _ _ => rfl
  have defining := defining_typeStays hfree t
  rw [defineType_eq] at h
  obtain ⟨_, w₁, h₁, h⟩ := gives_bind.1 h
  obtain ⟨_, w₂, h₂, h⟩ := gives_bind.1 h
  obtain ⟨is, w₃, h₃, h⟩ := gives_bind.1 h
  obtain ⟨gs, w₄, h₄, h⟩ := gives_bind.1 h
  obtain ⟨as, w₅, h₅, h₆⟩ := gives_bind.1 h
  obtain rfl := gives_modifyStore.1 h₁
  obtain rfl := gives_modifyStore.1 h₆
  -- the attributes are written first, and the rest last
  obtain ⟨there, attributes⟩ := (((stays_of_defineBase hfree (fun _ _ => rfl) h₂).trans
    ((defining.rowsOfTrees c _).gives h₃)).trans (((defining.genericParams c _).gives h₄).trans
      ((defining.customAttributes c _).gives h₅)))
        (Nat.lt_of_lt_of_eq ht (Store.length_modifyType t _).symm)
  refine ⟨Nat.lt_of_lt_of_eq there (Store.length_modifyType t _).symm, ?_⟩
  change ((w₅.store.modifyType t _).typeDef t).numbers = _
  rw [Store.typeDef_modifyType there, TypeDef.numbers, TypeData.numbers, Numbers.cut,
    numbers_of_genericParams h₄, attributes, Store.typeDef_modifyType ht]
  cases d.layout with
  | none => simp
  | some l => simp [cut16]

/-- The properties of a type are replaced if there are any, and nothing else is. -/
theorem numbers_of_defineProperties (ht : w.store.There (.typeDef t))
    (h : Gives (Writing.forPresent d.properties fun ps => do
      let properties ← ps.mapM (Writing.property c)
      Writing.modifyStore (·.modifyType t fun l => { l with properties })) w u w') :
    w.store.TypeStays TypeDef.numbers t w'.store ∧ ∀ {ps}, d.properties = some ps →
      (w'.store.typeDef t).propertyNumbers = (Numbers.ofProperties ps).cut := by
  have m := defining_typeStays memberFree_numbers t
  cases hd : d.properties with
  | none =>
      rw [hd] at h
      obtain ⟨-, rfl⟩ := gives_pure.1 h
      exact ⟨.of_eq rfl, nofun⟩
  | some ps =>
      rw [hd] at h
      obtain ⟨qs, w₁, hqs, h⟩ := gives_bind.1 h
      have stays := (m.mapM (m.property c) ps).gives hqs
      obtain rfl := gives_modifyStore.1 h
      refine ⟨stays.trans (.modifyType fun _ => rfl), ?_⟩
      rintro _ ⟨⟩
      change ((w₁.store.modifyType t _).typeDef t).propertyNumbers = _
      rw [Store.typeDef_modifyType (stays ht).1, TypeDef.propertyNumbers,
        numbers_of_properties_written hqs]
      rfl

/-- The events of a type are replaced if there are any, and nothing else is. -/
theorem numbers_of_defineEvents (ht : w.store.There (.typeDef t))
    (h : Gives (Writing.forPresent d.events fun es => do
      let events ← es.mapM (Writing.event c)
      Writing.modifyStore (·.modifyType t fun l => { l with events })) w u w') :
    w.store.TypeStays TypeDef.numbers t w'.store ∧
      w.store.TypeStays TypeDef.propertyNumbers t w'.store ∧ ∀ {es}, d.events = some es →
        (w'.store.typeDef t).eventNumbers = (Numbers.ofEvents es).cut := by
  have m := defining_typeStays memberFree_numbers t
  have m' := defining_typeStays memberFree_propertyNumbers t
  cases hd : d.events with
  | none =>
      rw [hd] at h
      obtain ⟨-, rfl⟩ := gives_pure.1 h
      exact ⟨.of_eq rfl, .of_eq rfl, nofun⟩
  | some es =>
      rw [hd] at h
      obtain ⟨qs, w₁, hqs, h⟩ := gives_bind.1 h
      have stays := (m.mapM (m.event c) es).gives hqs
      have stays' := (m'.mapM (m'.event c) es).gives hqs
      obtain rfl := gives_modifyStore.1 h
      refine ⟨stays.trans (.modifyType fun _ => rfl), stays'.trans (.modifyType fun _ => rfl), ?_⟩
      rintro _ ⟨⟩
      change ((w₁.store.modifyType t _).typeDef t).eventNumbers = _
      rw [Store.typeDef_modifyType (stays ht).1, TypeDef.eventNumbers, numbers_of_events_written hqs]
      rfl

/-- Putting the members of a type in place leaves its numbers, and writes those of its properties and events. -/
theorem numbers_of_defineMembers (ht : w.store.There (.typeDef t))
    (h : Gives (Writing.defineMembers c t d) w u w') :
    w.store.TypeStays TypeDef.numbers t w'.store ∧
      (∀ {ps}, d.properties = some ps →
        (w'.store.typeDef t).propertyNumbers = (Numbers.ofProperties ps).cut) ∧
      ∀ {es}, d.events = some es →
        (w'.store.typeDef t).eventNumbers = (Numbers.ofEvents es).cut := by
  obtain ⟨_, w₁, h₁, h⟩ := gives_bind.1 h
  obtain ⟨_, w₂, h₂, h⟩ := gives_bind.1 h
  obtain ⟨_, w₃, h₃, h₄⟩ := gives_bind.1 h
  have m := defining_typeStays memberFree_numbers t
  have s₂ : w.store.TypeStays TypeDef.numbers t w₂.store :=
    m.trans ((m.orderFields c (fun _ _ => .modifyType fun _ => rfl) (m.fields c · _) _).gives h₁)
      ((m.orderMethods c (fun _ _ => .modifyType fun _ => rfl) (m.methods c · _) _).gives h₂)
  obtain ⟨s₃, properties⟩ := numbers_of_defineProperties (s₂ ht).1 h₃
  have there := ((s₂.trans s₃) ht).1
  obtain ⟨s₄, kept, events⟩ := numbers_of_defineEvents there h₄
  exact ⟨(s₂.trans s₃).trans s₄, fun hps => (kept there).2.trans (properties hps), events⟩

end Types

/-! ### What is there in the end -/

namespace WriteState.Sound

variable {w w' : WriteState} {c : Catalog} {row : Row} {level : Level}

/-- A field that has not been written yet gets its numbers. -/
theorem field_stored (hw : w.Sound) {e : FieldEntity} {d : FieldData} (hd : e.data? = some d)
    (hlevel : .definition ≤ level) (hnew : w.writer.fields.level e.identity < .definition)
    (h : Gives (Writing.field c e level) w row w') :
    w'.store.There row ∧ ∃ f, row = .fieldDef f ∧ d.Stored w'.store f := by
  rw [field_eq_write] at h
  obtain ⟨f, w₁, w₂, hrow, hown, hdefine, hstore⟩ := MemberWriting.of_write_new (M := fieldWriting c e)
    (making_likewise.fieldRow c _) hd hlevel hnew h
  have there := hw.fieldRow hrow
  rw [hstore]
  cases row with
  | fieldDef f =>
      cases hown
      obtain ⟨there, heq⟩ := numbers_of_defineField there hdefine
      exact ⟨there, f, rfl, FieldData.stored_of_eq heq⟩
  | _ => cases hown

/-- A method that has not been written yet gets its numbers. -/
theorem method_stored (hw : w.Sound) {e : MethodEntity} {d : MethodData} (hd : e.data? = some d)
    (hlevel : .definition ≤ level) (hnew : w.writer.methods.level e.identity < .definition)
    (h : Gives (Writing.method c e level) w row w') :
    w'.store.There row ∧ ∃ k, row = .methodDef k ∧ d.Stored w'.store k := by
  rw [method_eq_write] at h
  obtain ⟨k, w₁, w₂, hrow, hown, hdefine, hstore⟩ := MemberWriting.of_write_new (M := methodWriting c e)
    (making_likewise.methodRow c _) hd hlevel hnew h
  have there := hw.methodRow hrow
  rw [hstore]
  cases row with
  | methodDef k =>
      cases hown
      obtain ⟨there, heq, hbody⟩ := numbers_of_defineMethod there hdefine
      exact ⟨there, k, rfl, MethodData.stored_of_eq heq hbody⟩
  | _ => cases hown

/-- What is said of a type stays when those nested in it are written. -/
theorem stays_of_nestTypes {β : Type} {said : TypeDef → β} {depth : Nat} {n : TypeId} {u : Unit}
    {ks : Option (List Token)} {s : Store} (ht : s.Tiered) (hn : n.index < s.typeDefs.length)
    (hs : s.HeadsStay w.store) (hsaid : MemberFree said)
    (h : Gives (Writing.forPresent ks (Writing.nestTypes c depth n)) w u w') :
    w.store.TypeStays said n w'.store := by
  refine Spares.forPresent (typeWithin_spares hsaid depth n) hsaid h fun hu => ?_
  exact ht.not_inside (hs.trans (headsStay_of_nestTypes h)) hn hu

/-- A type that has not been written yet gets its numbers, and so do its properties and events when it is written with them. -/
theorem type_stored (hw : w.Sound) {e : TypeEntity} {d : TypeData} (hd : e.data? = some d)
    (hnew : w.writer.types.level e.identity < level)
    (h : Gives (Writing.type c e level) w row w') :
    w'.store.There row ∧ ∃ t, row = .typeDef t ∧
      (w.writer.types.level e.identity < .definition → d.Stored w'.store t) ∧
      (level = .withChildren → d.ChildrenStored w'.store t) := by
  obtain ⟨w₁, hrow, hrest⟩ := Writing.gives_typeWithin h
  obtain ⟨there, tiered⟩ := hw.typeRow hrow
  have likewise := (making_likewise.typeRow _).gives hrow
  rw [likewise.types] at hrest
  obtain ⟨hle, -⟩ | ⟨-, d', t, w₂, hd', rfl, honce, hrest⟩ := hrest
  · exact absurd hle (Int32.not_le.2 hnew)
  obtain rfl := Option.some.inj (hd.symm.trans hd')
  -- the definition is written if it has not been, and types stay where they are
  have first : w₂.store.There (.typeDef t) ∧ w₁.store.HeadsStay w₂.store ∧
      (w.writer.types.level e.identity < .definition →
        (w₂.store.typeDef t).numbers = d.numbers.cut) := by
    obtain ⟨-, v, hv, rfl⟩ | ⟨hle, rfl⟩ := honce
    · obtain ⟨there', heq⟩ := numbers_of_defineType there hv
      refine ⟨there', fun u => ?_, fun _ => heq⟩
      have stays := ((shaping_head u).defineType c (fun w f hf =>
        (shaping_head u).changeType w t f hf.head) d).gives hv
      exact stays
    · refine ⟨there, fun u => .of_eq rfl, fun hlt => absurd hlt ?_⟩
      rwa [likewise.types] at hle
  obtain ⟨there₂, stay, numbers⟩ := first
  obtain ⟨hne, rfl⟩ | ⟨-, w₃, w₄, hnested, hmembers, rfl⟩ := hrest
  · exact ⟨there₂, t, rfl, fun hlt => TypeData.stored_of_eq (numbers hlt), fun h => absurd h hne⟩
  · have s₃ := stays_of_nestTypes tiered there stay memberFree_numbers hnested
    obtain ⟨s₄, properties, events⟩ := numbers_of_defineMembers (s₃ there₂).1 hmembers
    obtain ⟨there₄, kept⟩ := (s₃.trans s₄) there₂
    refine ⟨there₄, t, rfl, fun hlt => TypeData.stored_of_eq (kept.trans (numbers hlt)), fun _ => ?_⟩
    refine ⟨fun hps => ⟨.of_eq (properties hps), fun hqs => ?_⟩,
      fun hes => ⟨.of_eq (events hes), fun hqs => ?_⟩⟩
    · exact .of_eq ((numbers_of_properties hqs).trans (properties hps))
    · exact .of_eq ((numbers_of_events hqs).trans (events hes))

/-- What has not been written yet gets its numbers, cut to the width that a live module has for them, and is read with these.  So they are read as they were if the module has room for them, and not otherwise. -/
theorem numbers_stored (hw : w.Sound) (c : Catalog) :
    (∀ {e : FieldEntity} {d level row w'}, e.data? = some d → .definition ≤ level →
      w.writer.fields.level e.identity < .definition → Gives (Writing.field c e level) w row w' →
      w'.store.There row ∧ ∃ f, row = .fieldDef f ∧ d.Stored w'.store f) ∧
    (∀ {e : MethodEntity} {d level row w'}, e.data? = some d → .definition ≤ level →
      w.writer.methods.level e.identity < .definition → Gives (Writing.method c e level) w row w' →
      w'.store.There row ∧ ∃ k, row = .methodDef k ∧ d.Stored w'.store k) ∧
    ∀ {e : TypeEntity} {d level row w'}, e.data? = some d →
      w.writer.types.level e.identity < level → Gives (Writing.type c e level) w row w' →
      w'.store.There row ∧ ∃ t, row = .typeDef t ∧
        (w.writer.types.level e.identity < .definition → d.Stored w'.store t) ∧
        (level = .withChildren → d.ChildrenStored w'.store t) :=
  ⟨hw.field_stored, hw.method_stored, hw.type_stored⟩

end WriteState.Sound

/-! ### A field without room -/

section Gauge

/-- A writer that has written nothing, and its module. -/
def blank : WriteState := (Writers.start .empty "M").state 0

theorem sound_blank : blank.Sound :=
  Writers.sound Store.sealed_empty Store.Built.empty.arranged ⟨fun _ => 0, nofun⟩ "M" [] 0

/-- A type with a property. -/
def gaugeData : TypeData where
  attributes := 0x100000
  layout := some ⟨4, 100⟩
  properties := some [⟨"p", .ofConvention .property [.int32 0, .int32 0, .ofElement .i4], 0x200,
    none, none, none⟩]

/-- A method with a body. -/
def readData : MethodData where
  attributes := 0x16
  body := some ⟨[⟨"ret", none⟩], [], [], 8, false⟩

/-- A field with the given attributes. -/
def scaleField (attributes : Int32) : FieldEntity :=
  .definition ⟨"scale", .token (.index 0), .ofConvention .field [.int32 0, .ofElement .i4]⟩
    { attributes }

def readMethod : MethodEntity :=
  .definition ⟨"read", .token (.index 0),
    .ofConvention .standard [.int32 0, .int32 0, .ofElement .void]⟩ readData

def gaugeType : TypeEntity := .definition ⟨"Gauge", [], none, none⟩ gaugeData

def gauge : Catalog where
  options := .default
  types := ⟨[(.index 0, gaugeType)], by decide, rfl⟩
  fields := ⟨[(.index 0, scaleField 6)], by decide, rfl⟩
  methods := ⟨[(.index 0, readMethod)], by decide, rfl⟩

/-- All the numbers have room. -/
theorem numbers_stored_gauge : blank.Sound ∧
    (∃ row w' f, Gives (Writing.field gauge (scaleField 6) .definition) blank row w' ∧
      FieldData.Stored { attributes := 6 } w'.store f) ∧
    (∃ row w' k, Gives (Writing.method gauge readMethod .definition) blank row w' ∧
      readData.Stored w'.store k) ∧
    (∃ row w' t, Gives (Writing.type gauge gaugeType .withChildren) blank row w' ∧
      gaugeData.Stored w'.store t ∧ gaugeData.ChildrenStored w'.store t) ∧
    gaugeData.numbers.Fit ∧ readData.numbers.Fit := by
  obtain ⟨field, method, type⟩ := WriteState.Sound.numbers_stored sound_blank gauge
  obtain ⟨r₁, h₁⟩ := gives_of_isOk (x := Writing.field gauge (scaleField 6) .definition)
    (a := blank) (by decide +kernel)
  obtain ⟨r₂, h₂⟩ := gives_of_isOk (x := Writing.method gauge readMethod .definition)
    (a := blank) (by decide +kernel)
  obtain ⟨r₃, h₃⟩ := gives_of_isOk (x := Writing.type gauge gaugeType .withChildren)
    (a := blank) (by decide +kernel)
  obtain ⟨-, f, -, hf⟩ := field rfl (Int32.le_refl _) (by decide) h₁
  obtain ⟨-, k, -, hk⟩ := method rfl (Int32.le_refl _) (by decide) h₂
  obtain ⟨-, t, -, ht, hc⟩ := type rfl (by decide) h₃
  exact ⟨sound_blank, ⟨_, _, f, h₁, hf⟩, ⟨_, _, k, h₂, hk⟩, ⟨_, _, t, h₃, ht (by decide), hc rfl⟩,
    Numbers.cut_eq_iff.1 (by decide +kernel), Numbers.cut_eq_iff.1 (by decide +kernel)⟩

/-- The attributes of a field have no room.  They are accepted, and come back as others. -/
theorem not_numbers_stored_scale : blank.Sound ∧ ∃ row w' f,
    Gives (Writing.field gauge (scaleField 0x10003) .definition) blank row w' ∧ row = .fieldDef f ∧
      (Reading.fieldData w'.store (w'.store.fieldDef f) (.start ⟨0⟩ .default)).1.toOption.map
        FieldData.attributes = some 3 := by
  obtain ⟨row, h⟩ := gives_of_isOk (x := Writing.field gauge (scaleField 0x10003) .definition)
    (a := blank) (by decide +kernel)
  have hrow : (Writing.field gauge (scaleField 0x10003) .definition blank).1.toOption =
      some (.fieldDef ⟨0⟩) := by rfl
  rw [show Writing.field gauge (scaleField 0x10003) .definition blank = (.ok row, _) from h] at hrow
  exact ⟨sound_blank, row, _, ⟨0⟩, h, Option.some.inj hrow, by decide +kernel⟩

end Gauge

end CilCatalog
