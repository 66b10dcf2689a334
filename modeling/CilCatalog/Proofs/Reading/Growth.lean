import CilCatalog.Catalog
import CilCatalog.Proofs.Reading.Record

/-!
# How catalogs grow

What reading does to the entries of a catalog.

* `Entity.Becomes`: how the entity under a token may change; `TypeData.Completes`: how the data of a type may.
* `TokenMap.Grows`: every entry keeps its position and its token, and its entity becomes another.
* `Catalog.Grows`: the three maps grow, and definitions of members stay as they are.
* `RegisterStep.entries`: a registration lets the map grow, if the entity that it replaces may become the new one.
-/

namespace CilCatalog

/-! ### Data of types -/

namespace TypeData

/-- The five lists of children are absent. -/
structure Childless (d : TypeData) : Prop where
  nestedTypes : d.nestedTypes = none
  fields : d.fields = none
  methods : d.methods = none
  properties : d.properties = none
  events : d.events = none

/-- The five lists of children are present. -/
structure Complete (d : TypeData) : Prop where
  nestedTypes : d.nestedTypes.isSome
  fields : d.fields.isSome
  methods : d.methods.isSome
  properties : d.properties.isSome
  events : d.events.isSome

/-- The same data, with all lists of children after there have been none. -/
structure Completes (d d' : TypeData) : Prop where
  childless : d.Childless
  complete : d'.Complete
  same : d'.bare = d

theorem childless_of_bare {d : TypeData} (h : d.bare = d) : d.Childless := by
  rw [← h]
  exact ⟨rfl, rfl, rfl, rfl, rfl⟩

theorem Childless.bare {d : TypeData} (h : d.Childless) : d.bare = d := by
  cases d
  obtain ⟨rfl, rfl, rfl, rfl, rfl⟩ := h
  rfl

theorem Complete.not_childless {d : TypeData} (h : d.Complete) : ¬ d.Childless := fun h' => by
  have := h.fields
  rw [h'.fields] at this
  exact Bool.false_ne_true this

end TypeData

/-! ### Entities and maps -/

/-- The identity stays.  A reference may be defined, and a definition may change as `R` says. -/
inductive Entity.Becomes {ι δ : Type} (R : δ → δ → Prop) : Entity ι δ → Entity ι δ → Prop where
  | same (e : Entity ι δ) : Becomes R e e
  | defined (id : ι) (d : δ) : Becomes R (.reference id) (.definition id d)
  | extended (id : ι) {d d' : δ} (h : R d d') : Becomes R (.definition id d) (.definition id d')

namespace Entity.Becomes

variable {ι δ : Type} {R : δ → δ → Prop} {e e' e'' : Entity ι δ}

theorem trans (hR : ∀ {a b c}, R a b → R b c → R a c) (h : e.Becomes R e') (h' : e'.Becomes R e'') :
    e.Becomes R e'' := by
  cases h with
  | same => exact h'
  | defined id d =>
      cases h' with
      | same => exact .defined id d
      | extended _ _ => exact .defined id _
  | extended id hd =>
      cases h' with
      | same => exact .extended id hd
      | extended _ hd' => exact .extended id (hR hd hd')

/-- Where definitions do not change, what is defined stays. -/
theorem eq_of_definition {id : ι} {d : δ}
    (h : (Entity.definition id d).Becomes (fun _ _ => False) e) : e = .definition id d := by
  cases h with
  | same => rfl
  | extended _ h => exact h.elim

end Entity.Becomes

/-- Every entry keeps its position and its token, and its value changes as `R` says. -/
def TokenMap.Grows {named named' : Bool} {α : Type} (R : α → α → Prop) (m : TokenMap named α)
    (m' : TokenMap named' α) : Prop :=
  ∀ (i : Nat) t a, m.entries[i]? = some (t, a) → ∃ b, m'.entries[i]? = some (t, b) ∧ R a b

namespace TokenMap

section Positions

variable {named : Bool} {α : Type} {m m' : TokenMap named α} {t : Token} {a : α}

theorem nodup_keys (m : TokenMap named α) : m.keys.Nodup := nodup_of_wellKeyed m.wellKeyed

/-- A token is at one position. -/
theorem position_unique {i j : Nat} {b : α} (hi : m.entries[i]? = some (t, a))
    (hj : m.entries[j]? = some (t, b)) : i = j ∧ a = b := by
  have key {i : Nat} {a : α} (h : m.entries[i]? = some (t, a)) : m.keys[i]? = some t := by
    rw [keys, List.getElem?_map, h]
    rfl
  have hlt : i < m.keys.length := (List.getElem?_eq_some_iff.1 (key hi)).1
  obtain rfl := (List.getElem?_inj hlt m.nodup_keys).1 ((key hi).trans (key hj).symm)
  rw [hi] at hj
  cases hj
  exact ⟨rfl, rfl⟩

theorem get?_iff : m.get? t = some a ↔ ∃ i : Nat, m.entries[i]? = some (t, a) := by
  constructor
  · exact fun h => List.getElem?_of_mem (mem_of_get? h)
  · rintro ⟨i, hi⟩
    have hmem : (t, a) ∈ m.entries := List.mem_of_getElem? hi
    cases hg : m.get? t with
    | none =>
        rw [get?, List.lookup_eq_none_iff] at hg
        exact absurd (hg _ hmem) (by simp)
    | some b =>
        obtain ⟨j, hj⟩ := List.getElem?_of_mem (mem_of_get? hg)
        rw [(position_unique hi hj).2]

end Positions

namespace Grows

variable {named named' named'' : Bool} {α : Type} {R : α → α → Prop} {m : TokenMap named α}
  {m' : TokenMap named' α} {m'' : TokenMap named'' α}

theorem refl (hR : ∀ a, R a a) (m : TokenMap named α) : Grows R m m := fun _ _ a h => ⟨a, h, hR a⟩

theorem trans (hR : ∀ {a b c}, R a b → R b c → R a c) (h : Grows R m m') (h' : Grows R m' m'') :
    Grows R m m'' := by
  intro i t a ha
  obtain ⟨b, hb, hab⟩ := h i t a ha
  obtain ⟨c, hc, hbc⟩ := h' i t b hb
  exact ⟨c, hc, hR hab hbc⟩

theorem get? (h : Grows R m m') {t : Token} {a : α} (ha : m.get? t = some a) :
    ∃ b, m'.get? t = some b ∧ R a b := by
  obtain ⟨i, hi⟩ := get?_iff.1 ha
  obtain ⟨b, hb, hab⟩ := h i t a hi
  exact ⟨b, get?_iff.2 ⟨i, hb⟩, hab⟩

/-- The keys that there have been come first. -/
theorem keys (h : Grows R m m') : m.keys <+: m'.keys := by
  rw [List.prefix_iff_getElem?]
  intro i hi
  rw [TokenMap.keys, List.length_map] at hi
  obtain ⟨b, hb, -⟩ := h i (m.entries[i]).1 (m.entries[i]).2 (List.getElem?_eq_getElem hi)
  rw [TokenMap.keys, List.getElem?_map, hb]
  simp [TokenMap.keys]

end Grows

end TokenMap

/-! ### Registrations -/

section Step

variable {named : Bool} {ι δ : Type} [Identity ι] [NormalForm ι] {l l' : Ledger ι}
  {m m' : TokenMap named (Entity ι δ)} {e : Entity ι δ} {level : Level} {u : Registered}
  {R : δ → δ → Prop}

/-- A registration lets the map grow, if what it replaces may become the new entity. -/
theorem RegisterStep.entries {S : Entity ι δ → Entity ι δ → Prop} (refl : ∀ e, S e e)
    (h : RegisterStep l m e level u l' m') (hb : Books l m) (he : Normal e.identity)
    (raise : ∀ {r e₀}, l.find? e.identity = some r → r.level < level →
      m.get? r.token = some e₀ → e₀.identity = e.identity → S e₀ e) : m.Grows S m' := by
  cases h with
  | known r hr hl => exact .refl refl m
  | raised r hr hl hk =>
      intro i t a ha
      by_cases ht : t = r.token
      · subst ht
        obtain ⟨e₀, he₀, hid, -⟩ := hb.found _ r he hr
        obtain ⟨j, hj⟩ := TokenMap.get?_iff.1 he₀
        obtain ⟨rfl, rfl⟩ := TokenMap.position_unique ha hj
        exact ⟨e, by simp [TokenMap.replace, ha], raise hr hl he₀ hid⟩
      · exact ⟨a, by simp [TokenMap.replace, ha, ht], refl a⟩
  | new t m' hn ha =>
      intro i t a hi
      refine ⟨a, ?_, refl a⟩
      rw [TokenMap.entries_add ha, List.getElem?_append_left (List.getElem?_eq_some_iff.1 hi).1]
      exact hi

/-- What is replaced by a reference or by a definition, which is not on record as defined, becomes it. -/
theorem Books.becomes (hb : Books l m) (he : Normal e.identity) {r : Registration} {e₀ : Entity ι δ}
    (hr : l.find? e.identity = some r) (hlt : r.level < level) (hl : level ≤ .definition)
    (hd : e.isDefinition = true ↔ .definition ≤ level)
    (h₀ : m.get? r.token = some e₀) (hid : e₀.identity = e.identity) : e₀.Becomes R e := by
  obtain ⟨e₁, h₁, -, hdef⟩ := hb.found _ r he hr
  cases h₀.symm.trans h₁
  cases e₀ with
  | definition id₀ d₀ =>
      exact absurd (Level.le_trans hl (hdef.1 rfl)) fun h => Level.not_lt_of_le h hlt
  | reference id₀ =>
      obtain rfl : id₀ = e.identity := hid
      cases e with
      | reference id => exact .same _
      | definition id d => exact .defined id d

end Step

/-! ### Catalogs -/

/-- The three maps grow.  Types may get their children, and nothing else about a definition changes. -/
structure Catalog.Grows (c c' : Catalog) : Prop where
  options : c'.options = c.options
  types : c.types.Grows (Entity.Becomes TypeData.Completes) c'.types
  fields : c.fields.Grows (Entity.Becomes fun _ _ => False) c'.fields
  methods : c.methods.Grows (Entity.Becomes fun _ _ => False) c'.methods

namespace Catalog.Grows

variable {c c' c'' : Catalog}

theorem refl (c : Catalog) : c.Grows c := ⟨rfl, .refl .same _, .refl .same _, .refl .same _⟩

theorem trans (h : c.Grows c') (h' : c'.Grows c'') : c.Grows c'' where
  options := h'.options.trans h.options
  types := h.types.trans
    (.trans fun hab hbc => absurd hbc.childless hab.complete.not_childless) h'.types
  fields := h.fields.trans (.trans fun hab _ => hab) h'.fields
  methods := h.methods.trans (.trans fun hab _ => hab) h'.methods

theorem field (h : c.Grows c') {k : Token} {id : MemberIdentity} {d : FieldData}
    (hk : c.fields.get? k = some (.definition id d)) :
    c'.fields.get? k = some (.definition id d) := by
  obtain ⟨e, he, hb⟩ := h.fields.get? hk
  rw [he, hb.eq_of_definition]

theorem method (h : c.Grows c') {k : Token} {id : MemberIdentity} {d : MethodData}
    (hk : c.methods.get? k = some (.definition id d)) :
    c'.methods.get? k = some (.definition id d) := by
  obtain ⟨e, he, hb⟩ := h.methods.get? hk
  rw [he, hb.eq_of_definition]

/-- A type that has its children stays as it is. -/
theorem complete (h : c.Grows c') {k : Token} {id : TypeIdentity} {d : TypeData}
    (hk : c.types.get? k = some (.definition id d)) (hd : d.Complete) :
    c'.types.get? k = some (.definition id d) := by
  obtain ⟨e, he, hb⟩ := h.types.get? hk
  cases hb with
  | same => exact he
  | extended _ hc => exact absurd hc.childless hd.not_childless

end Catalog.Grows

end CilCatalog
