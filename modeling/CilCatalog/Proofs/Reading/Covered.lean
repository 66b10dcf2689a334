import CilCatalog.Proofs.Gives
import CilCatalog.Proofs.Ledger
import CilCatalog.Proofs.Uses
import CilCatalog.Reading.Entity

/-!
# Tokens that have entries

The logic in which reading is shown to leave no token without an entry, whether it succeeds or fails.

* `Covered us x v`: from a closed reader that has entries for `us`, the computation leaves a closed one that has entries for as much and, unless it has failed, for the tokens of its result.
* `Covered.bind`: what the first computation gives has entries for the second.
* `Covered.registerType` and its like: an entity may be registered when its tokens have entries.
-/

namespace CilCatalog

/-! ### Entries for uses -/

namespace Catalog

variable {c c' : Catalog} {us vs : List Use}

@[simp] theorem covers_nil : c.Covers [] := fun _ h => absurd h List.not_mem_nil

@[simp] theorem covers_append : c.Covers (us ++ vs) ↔ c.Covers us ∧ c.Covers vs :=
  List.forall_mem_append

theorem covers_flatMap {α : Type} {f : α → List Use} {as : List α} :
    c.Covers (as.flatMap f) ↔ ∀ a ∈ as, c.Covers (f a) := by
  constructor
  · exact fun h a ha u hu => h u (List.mem_flatMap.2 ⟨a, ha, hu⟩)
  · intro h u hu
    obtain ⟨a, ha, hu⟩ := List.mem_flatMap.1 hu
    exact h a ha u hu

/-- Every entry of one catalog is there in the other. -/
def Extends (c c' : Catalog) : Prop := ∀ k, c.keys k ⊆ c'.keys k

theorem Extends.refl (c : Catalog) : c.Extends c := fun _ => List.Subset.refl _

theorem Extends.trans {c'' : Catalog} (h : c.Extends c') (h' : c'.Extends c'') : c.Extends c'' :=
  fun k => List.Subset.trans (h k) (h' k)

theorem Extends.of_keys (ht : c.types.keys ⊆ c'.types.keys) (hf : c.fields.keys ⊆ c'.fields.keys)
    (hm : c.methods.keys ⊆ c'.methods.keys) : c.Extends c'
  | .type   => ht
  | .field  => hf
  | .method => hm

theorem Covers.extend (h : c.Covers us) (he : c.Extends c') : c'.Covers us := fun u hu =>
  he u.kind (h u hu)

theorem covers_uses : c.Covers c'.uses ↔
    (∀ e ∈ c'.types.values, c.Covers (e.uses TypeIdentity.uses TypeData.uses)) ∧
      (∀ e ∈ c'.fields.values, c.Covers (e.uses MemberIdentity.uses FieldData.uses)) ∧
        ∀ e ∈ c'.methods.values, c.Covers (e.uses MemberIdentity.uses MethodData.uses) := by
  simp only [uses, covers_append, covers_flatMap, and_assoc]

/-- A closed catalog may be extended by entities whose tokens have entries afterwards. -/
theorem Closed.extend (h : c.Closed) (he : c.Extends c')
    (ht : ∀ e ∈ c'.types.values,
      e ∈ c.types.values ∨ c'.Covers (e.uses TypeIdentity.uses TypeData.uses))
    (hf : ∀ e ∈ c'.fields.values,
      e ∈ c.fields.values ∨ c'.Covers (e.uses MemberIdentity.uses FieldData.uses))
    (hm : ∀ e ∈ c'.methods.values,
      e ∈ c.methods.values ∨ c'.Covers (e.uses MemberIdentity.uses MethodData.uses)) :
    c'.Closed := by
  obtain ⟨types, fields, methods⟩ := covers_uses.1 h
  refine covers_uses.2 ⟨fun e h => ?_, fun e h => ?_, fun e h => ?_⟩
  · exact (ht e h).elim (fun h => (types e h).extend he) id
  · exact (hf e h).elim (fun h => (fields e h).extend he) id
  · exact (hm e h).elim (fun h => (methods e h).extend he) id

end Catalog

/-- The catalog is closed, and the tokens on record have entries. -/
structure Reader.Closed (ρ : Reader) : Prop where
  catalog : ρ.catalog.Closed
  types : ∀ x ∈ ρ.registry.types, x.2.token ∈ ρ.catalog.types.keys
  fields : ∀ x ∈ ρ.registry.fields, x.2.token ∈ ρ.catalog.fields.keys
  methods : ∀ x ∈ ρ.registry.methods, x.2.token ∈ ρ.catalog.methods.keys

/-- Where there are entries for `us`, there are for `vs`. -/
@[simp] def Entails (us vs : List Use) : Prop := ∀ c : Catalog, c.Covers us → c.Covers vs

/-- From a closed reader with entries for `us`, the computation leaves a closed one with entries for as much and, if it gives a value, for the uses in that. -/
def Covered {α : Type} (us : List Use) (x : Reading α) (v : α → List Use) : Prop :=
  ∀ ρ : Reader, ρ.Closed → ρ.catalog.Covers us →
    (x ρ).2.Closed ∧ ρ.catalog.Extends (x ρ).2.catalog ∧
      ∀ a, (x ρ).1 = .ok a → (x ρ).2.catalog.Covers (v a)

namespace Covered

variable {α β : Type} {us vs : List Use} {v w : α → List Use} {x : Reading α}

/-! ### Putting computations together -/

theorem pure {a : α} (h : Entails us (v a)) : Covered us (pure a : Reading α) v := by
  intro ρ hρ hus
  refine ⟨hρ, .refl _, ?_⟩
  rintro _ ⟨⟩
  exact h _ hus

theorem throw {f : Failure ReadFault} : Covered us (throw f : Reading α) v := by
  intro ρ hρ _
  refine ⟨hρ, .refl _, ?_⟩
  rintro _ ⟨⟩

theorem refuse {f : ReadFault} : Covered us (Reading.refuse f : Reading α) v := throw

theorem bind {f : α → Reading β} {w : β → List Use} (hx : Covered us x v)
    (hf : ∀ a, Covered (us ++ v a) (f a) w) : Covered us (x >>= f) w := by
  intro ρ hρ hus
  obtain ⟨closed, grown, covers⟩ := hx ρ hρ hus
  cases h : x ρ with
  | mk r ρ₁ =>
      rw [h] at closed grown covers
      cases r with
      | error e =>
          rw [run_bind_error h]
          refine ⟨closed, grown, ?_⟩
          rintro _ ⟨⟩
      | ok a =>
          rw [run_bind_ok h]
          obtain ⟨closed', grown', covers'⟩ := hf a ρ₁ closed
            (Catalog.covers_append.2 ⟨hus.extend grown, covers a rfl⟩)
          exact ⟨closed', grown.trans grown', covers'⟩

theorem weaken (h : Covered vs x v) (hs : Entails us vs) : Covered us x v := fun ρ hρ hus =>
  h ρ hρ (hs _ hus)

theorem map {f : α → β} {w : β → List Use} (hx : Covered us x v) (hf : ∀ a, Entails (v a) (w (f a))) :
    Covered us (f <$> x) w := by
  rw [map_eq_pure_bind]
  exact hx.bind fun a => pure fun c hc => hf a c (Catalog.covers_append.1 hc).2

theorem ite {p : Prop} [Decidable p] {y : Reading α} (hx : Covered us x v) (hy : Covered us y v) :
    Covered us (if p then x else y) v := by
  split
  · exact hx
  · exact hy

theorem mapM {f : α → Reading β} {w : β → List Use} (as : List α)
    (h : ∀ a {us}, Covered us (f a) w) {us : List Use} :
    Covered us (as.mapM f) fun bs => bs.flatMap w := by
  induction as generalizing us with
  | nil => exact pure fun c _ => Catalog.covers_nil
  | cons a as ih =>
      rw [List.mapM_cons]
      exact (h a).bind fun b => ih.bind fun bs => pure (by simp +contextual)

theorem option_mapM {f : α → Reading β} {w : β → List Use} (o : Option α)
    (h : ∀ a, Covered us (f a) w) : Covered us (o.mapM f) (usesOf w) := by
  cases o with
  | none => exact pure fun c _ => Catalog.covers_nil
  | some a => exact (h a).map fun b => by simp

theorem ofExcept {r : Except (Failure ReadFault) α} :
    Covered us (MonadExcept.ofExcept r : Reading α) fun _ => [] := by
  cases r with
  | ok a => exact pure fun c _ => Catalog.covers_nil
  | error e => exact throw

/-- What is stored has its tokens on record. -/
theorem get : Covered us (get : Reading Reader) fun ρ => ρ.catalog.uses := by
  intro ρ hρ _
  refine ⟨hρ, .refl _, ?_⟩
  rintro _ ⟨⟩
  exact hρ.catalog

theorem options : Covered us Reading.options fun _ => [] :=
  get.bind fun _ => pure fun _ _ => Catalog.covers_nil

/-- The token of what has been registered. -/
theorem token {x : Reading Registered} {k : EntityKind} (hx : Covered us x fun u => u.token.uses k) :
    Covered us (do return (← x).token) (Token.uses k) :=
  hx.bind fun _ => pure fun _ hc => (Catalog.covers_append.1 hc).2

end Covered

/-! ### Registering -/

section Register

variable {named : Bool} {ι δ : Type} [Identity ι] {l l' : Ledger ι} {m m' : TokenMap named (Entity ι δ)}
  {e : Entity ι δ} {level : Level} {u : Registered}

theorem Ledger.exists_mem_of_find? {id : ι} {r : Registration} (h : l.find? id = some r) :
    ∃ x ∈ l, x.2 = r := by
  obtain ⟨x, hx, rfl⟩ := Option.map_eq_some_iff.1 h
  exact ⟨x, List.mem_of_find?_eq_some hx, rfl⟩

/-- What is on record afterwards was on record before, or is what was put there. -/
theorem Ledger.mem_record {id : ι} {r : Registration} {x : ι × Registration} (h : x ∈ l.record id r) :
    x ∈ l ∨ x.2 = r := by
  induction l with
  | nil =>
      cases List.mem_singleton.1 h
      exact .inr rfl
  | cons y l ih =>
      rw [record] at h
      split at h
      · rcases List.mem_cons.1 h with rfl | h
        · exact .inr rfl
        · exact .inl (List.mem_cons_of_mem y h)
      · rcases List.mem_cons.1 h with rfl | h
        · exact .inl List.mem_cons_self
        · exact (ih h).imp_left (List.mem_cons_of_mem y)

/-- What a registration stores and puts on record. -/
theorem registerIn_entries {fresh : (Token → Bool) → ι → Except RegistryFault Token}
    (used : ∀ x ∈ l, x.2.token ∈ m.keys)
    (h : Registry.registerIn fresh l m e level = .ok (u, l', m')) :
    m.keys ⊆ m'.keys ∧ u.token ∈ m'.keys ∧ (∀ x ∈ l', x.2.token ∈ m'.keys) ∧
      ∀ v ∈ m'.values, v ∈ m.values ∨ v = e := by
  have step : RegisterStep l m e level u l' m' := by
    refine registerIn_step (fun r hr => ?_) h
    obtain ⟨x, hx, rfl⟩ := Ledger.exists_mem_of_find? hr
    exact used x hx
  cases step with
  | known r hr hl =>
      obtain ⟨x, hx, rfl⟩ := Ledger.exists_mem_of_find? hr
      exact ⟨List.Subset.refl _, used x hx, used, fun _ => .inl⟩
  | raised r hr hl hk =>
      rw [TokenMap.keys_replace]
      refine ⟨List.Subset.refl _, hk, fun x hx => ?_, fun v hv => ?_⟩
      · rcases Ledger.mem_record hx with hx | hx
        · exact used x hx
        · rw [hx]
          exact hk
      · obtain ⟨p, hp, rfl⟩ := List.mem_map.1 hv
        obtain ⟨q, hq, rfl⟩ := List.mem_map.1 hp
        split
        · exact .inr rfl
        · exact .inl (List.mem_map_of_mem hq)
  | new t m' hn ha =>
      have keys : m'.keys = m.keys ++ [t] := by
        rw [TokenMap.keys, TokenMap.entries_add ha, List.map_append]
        rfl
      have values : m'.values = m.values ++ [e] := by
        rw [TokenMap.values, TokenMap.entries_add ha, List.map_append]
        rfl
      rw [keys, values]
      have last : t ∈ m.keys ++ [t] := List.mem_append_right _ (List.mem_singleton_self t)
      refine ⟨List.subset_append_left _ _, last, fun x hx => ?_, fun v hv => ?_⟩
      · rcases Ledger.mem_record hx with hx | hx
        · exact List.mem_append_left _ (used x hx)
        · rw [hx]
          exact last
      · exact (List.mem_append.1 hv).imp_right List.mem_singleton.1

end Register

/-- A registration that keeps a reader closed and gives a token with an entry may be run. -/
theorem Covered.registering {us : List Use}
    {f : Registry → Catalog → Except RegistryFault (Registered × Registry × Catalog)} {k : EntityKind}
    (h : ∀ (ρ : Reader) u g c, ρ.Closed → ρ.catalog.Covers us → f ρ.registry ρ.catalog = .ok (u, g, c) →
      Reader.Closed { ρ with registry := g, catalog := c } ∧ ρ.catalog.Extends c ∧ u.token ∈ c.keys k) :
    Covered us (Reading.registering f) fun u => u.token.uses k := by
  intro ρ hρ hus
  cases hf : f ρ.registry ρ.catalog with
  | error e =>
      have run : Reading.registering f ρ = (.error (.fault (.registry e)), ρ) := by
        rw [Reading.registering, run_bind_ok (x := MonadState.get) (v := ρ) rfl, hf]
        rfl
      rw [run]
      refine ⟨hρ, .refl _, ?_⟩
      rintro _ ⟨⟩
  | ok p =>
      obtain ⟨u, g, c⟩ := p
      have run : Reading.registering f ρ = (.ok u, { ρ with registry := g, catalog := c }) := by
        rw [Reading.registering, run_bind_ok (x := MonadState.get) (v := ρ) rfl, hf]
        rfl
      obtain ⟨closed, grown, token⟩ := h ρ u g c hρ hus hf
      rw [run]
      refine ⟨closed, grown, ?_⟩
      rintro _ ⟨⟩ w hw
      cases List.mem_singleton.1 hw
      exact token

namespace Covered

variable {us : List Use} {level : Level}

/-- A type may be registered when the tokens in its data have entries. -/
theorem registerType {e : TypeEntity} (he : Entails us (e.uses TypeIdentity.uses TypeData.uses)) :
    Covered us (Reading.registerType e level) fun u => u.token.uses .type := by
  refine registering fun ρ u g c hρ hus h => ?_
  obtain ⟨⟨v, l, m⟩, hr, hp⟩ := bind_eq_ok.1 h
  cases hp
  obtain ⟨keys, token, used, values⟩ := registerIn_entries hρ.types hr
  have grown : ρ.catalog.Extends { ρ.catalog with types := m } :=
    .of_keys keys (List.Subset.refl _) (List.Subset.refl _)
  refine ⟨⟨hρ.catalog.extend grown ?_ (fun _ => .inl) fun _ => .inl, used, hρ.fields, hρ.methods⟩,
    grown, token⟩
  intro x hx
  refine (values x hx).imp_right ?_
  rintro rfl
  exact (he _ hus).extend grown

/-- A field may be registered when the tokens in its identity and its data have entries. -/
theorem registerField {e : FieldEntity} (he : Entails us (e.uses MemberIdentity.uses FieldData.uses)) :
    Covered us (Reading.registerField e level) fun u => u.token.uses .field := by
  refine registering fun ρ u g c hρ hus h => ?_
  unfold Registry.registerField at h
  split at h
  · cases h
  · obtain ⟨⟨v, l, m⟩, hr, hp⟩ := bind_eq_ok.1 h
    cases hp
    obtain ⟨keys, token, used, values⟩ := registerIn_entries hρ.fields hr
    have grown : ρ.catalog.Extends { ρ.catalog with fields := m } :=
      .of_keys (List.Subset.refl _) keys (List.Subset.refl _)
    refine ⟨⟨hρ.catalog.extend grown (fun _ => .inl) ?_ fun _ => .inl, hρ.types, used, hρ.methods⟩,
      grown, token⟩
    intro x hx
    refine (values x hx).imp_right ?_
    rintro rfl
    exact (he _ hus).extend grown

/-- The same for a method. -/
theorem registerMethod {e : MethodEntity} (he : Entails us (e.uses MemberIdentity.uses MethodData.uses)) :
    Covered us (Reading.registerMethod e level) fun u => u.token.uses .method := by
  refine registering fun ρ u g c hρ hus h => ?_
  unfold Registry.registerMethod at h
  split at h
  · cases h
  · obtain ⟨⟨v, l, m⟩, hr, hp⟩ := bind_eq_ok.1 h
    cases hp
    obtain ⟨keys, token, used, values⟩ := registerIn_entries hρ.methods hr
    have grown : ρ.catalog.Extends { ρ.catalog with methods := m } :=
      .of_keys (List.Subset.refl _) (List.Subset.refl _) keys
    refine ⟨⟨hρ.catalog.extend grown (fun _ => .inl) (fun _ => .inl) ?_, hρ.types, hρ.fields, used⟩,
      grown, token⟩
    intro x hx
    refine (values x hx).imp_right ?_
    rintro rfl
    exact (he _ hus).extend grown

end Covered

end CilCatalog
