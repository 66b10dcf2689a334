import CilCatalog.Proofs.Reading.Closed
import CilCatalog.Proofs.Reading.Growth
import CilCatalog.Proofs.Rename

/-!
# Two readers side by side

One reader gives out indices and the other names.  They go along with each other as long as both succeed: what one has on record is what the other has, with the names replaced by the positions of their entries.

* `Catalog.number`: in place of a token the index of its entry.
* `Alike`: one ledger and map are others with tokens replaced; `Alike.register`: they stay so when an entity is registered in both.
* `Like`: the same of readers.
* `Mirrors`: two computations, from readers that are like each other, give the same up to the tokens, and the readers stay like each other.

The positions are those in a catalog that the second reader has at some later time, which lies fixed.  As entries keep their positions, they are the positions at any time.
-/

namespace CilCatalog

open Live

/-! ### Positions as indices -/

/-- In place of a token the index of its entry.  A token without an entry stays, as does one behind the last index. -/
def Catalog.number (c : Catalog) : Renaming := fun k t =>
  let n := (c.keys k).idxOf t
  if n < (c.keys k).length ∧ n < 0x80000000 then .index (Int32.ofNat n) else t

theorem Catalog.nodup_keys (c : Catalog) : ∀ k, (c.keys k).Nodup
  | .type   => c.types.nodup_keys
  | .field  => c.fields.nodup_keys
  | .method => c.methods.nodup_keys

theorem TokenMap.isNamed_of_mem {named : Bool} {α : Type} (t : TokenMap named α) (h : named = true) :
    ∀ k ∈ t.keys, k.isNamed := by
  subst h
  exact t.wellKeyed.1

theorem TokenMap.index_of_add {named : Bool} {α : Type} {t t' : TokenMap named α} {k : Token} {a : α}
    (hn : named = false) (h : t.add k a = .ok t') :
    k = .index (Int32.ofNat t.size) ∧ t.size < 0x80000000 := by
  subst hn
  rw [add] at h
  split at h
  · cases h
  · cases k with
    | named n => cases h
    | index i =>
        dsimp only at h
        split at h
        · next hi =>
            have hlt : i.toInt < 0x80000000 := i.toInt_lt
            have hsize : t.size = t.keys.length := (List.length_map _).symm
            have hlen : t.size < 0x80000000 := by omega
            refine ⟨congrArg Token.index (Int32.toInt_inj.1 ?_), hlen⟩
            rw [hi, Int32.toInt_ofNat_of_lt hlen, hsize]
        · cases h

namespace Catalog

variable {c : Catalog} {k : EntityKind} {t t' : Token}

theorem isNamed_of_mem_keys (h : c.options.namedTokens = true) (ht : t ∈ c.keys k) : t.isNamed := by
  cases k with
  | type => exact c.types.isNamed_of_mem h t ht
  | field => exact c.fields.isNamed_of_mem h t ht
  | method => exact c.methods.isNamed_of_mem h t ht

theorem number_of_position {n : Nat} (h : (c.keys k)[n]? = some t) (hn : n < 0x80000000) :
    c.number k t = .index (Int32.ofNat n) := by
  obtain ⟨hlt, rfl⟩ := List.getElem?_eq_some_iff.1 h
  rw [number, List.Nodup.idxOf_getElem (c.nodup_keys k)]
  exact if_pos ⟨hlt, hn⟩

/-- Names that have entries are told apart by their numbers. -/
theorem number_inj (h : c.options.namedTokens = true) (ht : t ∈ c.keys k) (ht' : t' ∈ c.keys k)
    (heq : c.number k t = c.number k t') : t = t' := by
  have index {t : Token} {i : Int32} (ht : t ∈ c.keys k) : t ≠ .index i := by
    rintro rfl
    exact Bool.false_ne_true (isNamed_of_mem_keys h ht)
  rw [number, number] at heq
  split at heq
  · next hn =>
      split at heq
      · next hn' =>
          rw [Token.index.injEq, ← Int32.toInt_inj, Int32.toInt_ofNat_of_lt hn.2,
            Int32.toInt_ofNat_of_lt hn'.2, Int.ofNat_inj] at heq
          exact (List.idxOf_inj ht).1 heq
      · exact absurd heq.symm (index ht')
  · split at heq
    · exact absurd heq (index ht)
    · exact heq

/-- Every entry keeps its position, its token and its identity. -/
structure Keeps (c c' : Catalog) : Prop where
  types : c.types.Grows (fun e e' => e'.identity = e.identity) c'.types
  fields : c.fields.Grows (fun e e' => e'.identity = e.identity) c'.fields
  methods : c.methods.Grows (fun e e' => e'.identity = e.identity) c'.methods

theorem Keeps.refl (c : Catalog) : c.Keeps c where
  types _ _ e h := ⟨e, h, rfl⟩
  fields _ _ e h := ⟨e, h, rfl⟩
  methods _ _ e h := ⟨e, h, rfl⟩

theorem Keeps.trans {c c' c'' : Catalog} (h : c.Keeps c') (h' : c'.Keeps c'') : c.Keeps c'' where
  types := h.types.trans (fun h h' => h'.trans h) h'.types
  fields := h.fields.trans (fun h h' => h'.trans h) h'.fields
  methods := h.methods.trans (fun h h' => h'.trans h) h'.methods

end Catalog

/-! ### Ledgers and maps -/

def Registration.rename (τ : Token → Token) (r : Registration) : Registration :=
  { r with token := τ r.token }

def Registered.rename (τ : Token → Token) (u : Registered) : Registered :=
  { u with token := τ u.token }

section Alike

variable {named named' : Bool} {ι δ : Type} {τ : Token → Token} {f : ι → ι} {g : δ → δ}
  {l l₁ l' l₁' : Ledger ι} {t t₁ : TokenMap named (Entity ι δ)} {t' t₁' : TokenMap named' (Entity ι δ)}

/-- The first ledger and map are the second, with tokens, identities and data changed. -/
structure Alike (τ : Token → Token) (f : ι → ι) (g : δ → δ) (l : Ledger ι)
    (t : TokenMap named (Entity ι δ)) (l' : Ledger ι) (t' : TokenMap named' (Entity ι δ)) : Prop where
  ledger : l = l'.map fun e => (f e.1, e.2.rename τ)
  entries : t.entries = t'.entries.map fun e => (τ e.1, e.2.map f g)

theorem Alike.keys (h : Alike τ f g l t l' t') : t.keys = t'.keys.map τ := by
  rw [TokenMap.keys, h.entries, TokenMap.keys, List.map_map, List.map_map]
  rfl

theorem Alike.size (h : Alike τ f g l t l' t') : t.size = t'.size := by
  rw [TokenMap.size, h.entries, List.length_map]
  rfl

/-- What is under a token that is told apart from the others. -/
theorem Alike.get? (h : Alike τ f g l t l' t') {k : Token} (hk : ∀ k' ∈ t'.keys, τ k = τ k' → k = k') :
    t.get? (τ k) = (t'.get? k).map (Entity.map f g) := by
  rw [TokenMap.get?, TokenMap.get?, h.entries]
  rw [TokenMap.keys] at hk
  generalize t'.entries = es at hk
  induction es with
  | nil => rfl
  | cons e es ih =>
      rw [List.map_cons, List.lookup_cons, List.lookup_cons]
      rw [List.map_cons, List.forall_mem_cons] at hk
      by_cases hke : k = e.1
      · subst hke
        simp
      · have hne : τ k ≠ τ e.1 := fun heq => hke (hk.1 heq)
        rw [beq_false_of_ne hke, beq_false_of_ne hne]
        exact ih hk.2

/-- With the value under such a token replaced. -/
theorem Alike.replace (h : Alike τ f g l t l' t') {k : Token}
    (hk : ∀ k' ∈ t'.keys, τ k' = τ k → k' = k) (e : Entity ι δ) :
    (t.replace (τ k) (e.map f g)).entries =
      (t'.replace k e).entries.map fun e => (τ e.1, e.2.map f g) := by
  change List.map _ t.entries = List.map _ (List.map _ t'.entries)
  rw [h.entries, List.map_map, List.map_map]
  refine List.map_congr_left fun x hx => ?_
  have hx := hk x.1 (List.mem_map_of_mem hx)
  simp only [Function.comp_apply]
  by_cases hxk : x.1 = k
  · rw [if_pos hxk, if_pos (congrArg τ hxk)]
  · rw [if_neg hxk, if_neg fun heq => hxk (hx heq)]

variable [Identity ι]

/-- Registrations are found under identities that are told apart as before. -/
theorem find?_renamed {id : ι} (same : ∀ e ∈ l', Identity.same (f e.1) (f id) = Identity.same e.1 id) :
    Ledger.find? (l'.map fun e => (f e.1, e.2.rename τ)) (f id) =
      (l'.find? id).map (Registration.rename τ) := by
  induction l' with
  | nil => rfl
  | cons e l' ih =>
      rw [List.forall_mem_cons] at same
      rw [List.map_cons, Ledger.find?_cons, Ledger.find?_cons, same.1, ih same.2]
      split <;> rfl

theorem record_renamed {id : ι} (same : ∀ e ∈ l', Identity.same (f e.1) (f id) = Identity.same e.1 id)
    (r : Registration) :
    Ledger.record (l'.map fun e => (f e.1, e.2.rename τ)) (f id) (r.rename τ) =
      (l'.record id r).map fun e => (f e.1, e.2.rename τ) := by
  induction l' with
  | nil => rfl
  | cons e l' ih =>
      rw [List.forall_mem_cons] at same
      rw [List.map_cons, Ledger.record, Ledger.record, same.1, ih same.2]
      split <;> rfl

/-- The token that is on record for an identity is in use in the one if it is in the other. -/
theorem Alike.used [NormalForm ι] (h : Alike τ f g l t l' t') (hb : Books l' t') {id : ι}
    (hid : Normal id) (same : ∀ e ∈ l', Identity.same (f e.1) (f id) = Identity.same e.1 id)
    (r : Registration) (hr : l.find? (f id) = some r) : r.token ∈ t.keys := by
  rw [h.ledger, find?_renamed same, Option.map_eq_some_iff] at hr
  obtain ⟨r', hr', rfl⟩ := hr
  rw [h.keys]
  exact List.mem_map_of_mem (hb.used hid hr')

variable {e : Entity ι δ} {level : Level} {u u' : Registered}

/-- An entity that is registered in both. -/
theorem Alike.register (h : Alike τ f g l t l' t')
    (same : ∀ e' ∈ l', Identity.same (f e'.1) (f e.identity) = Identity.same e'.1 e.identity)
    (inj : ∀ k ∈ t₁'.keys, ∀ k' ∈ t₁'.keys, τ k = τ k' → k = k')
    (number : ∀ {n : Nat} {k}, t₁'.keys[n]? = some k → n < 0x80000000 → τ k = .index (Int32.ofNat n))
    (hn : named = false) (s : RegisterStep l t (e.map f g) level u l₁ t₁)
    (s' : RegisterStep l' t' e level u' l₁' t₁') :
    u = u'.rename τ ∧ Alike τ f g l₁ t₁ l₁' t₁' := by
  have find : l.find? (e.map f g).identity = (l'.find? e.identity).map (Registration.rename τ) := by
    rw [Entity.identity_map, h.ledger, find?_renamed same]
  have record (r : Registration) : l.record (e.map f g).identity (r.rename τ) =
      (l'.record e.identity r).map fun e => (f e.1, e.2.rename τ) := by
    rw [Entity.identity_map, h.ledger, record_renamed same]
  cases s' with
  | known r' hr' hl' =>
      rw [hr', Option.map_some] at find
      obtain ⟨rfl, rfl, rfl⟩ := s.known_of_le find hl'
      exact ⟨rfl, h⟩
  | raised r' hr' hl' hk' =>
      rw [hr', Option.map_some] at find
      cases s with
      | known r hr hl =>
          cases find.symm.trans hr
          exact absurd hl' (Level.not_lt_of_le hl)
      | raised r hr hl hk =>
          cases find.symm.trans hr
          rw [TokenMap.keys_replace] at inj
          exact ⟨rfl, record ⟨r'.token, level⟩,
            h.replace (fun k hk heq => inj k hk _ hk' heq) e⟩
      | new k t₁ hr ha =>
          rw [hr] at find
          cases find
  | new k' t₁' hr' ha' =>
      rw [hr', Option.map_none] at find
      cases s with
      | known r hr hl =>
          rw [hr] at find
          cases find
      | raised r hr hl hk =>
          rw [hr] at find
          cases find
      | new k t₁ hr ha =>
          -- the new index is the position of the new name
          obtain ⟨rfl, hlt⟩ := TokenMap.index_of_add hn ha
          have hk : t₁'.keys[t.size]? = some k' := by
            rw [TokenMap.keys, TokenMap.entries_add ha', h.size, TokenMap.size]
            simp
          have hk := number hk hlt
          rw [← hk]
          refine ⟨rfl, record ⟨k', level⟩, ?_⟩
          rw [TokenMap.entries_add ha, TokenMap.entries_add ha', h.entries, List.map_append, ← hk]
          rfl

end Alike

/-! ### Options -/

namespace Options

/-- The same options, but for what tokens are. -/
structure Agrees (o o' : Options) : Prop where
  fullAssemblyNames : o.fullAssemblyNames = o'.fullAssemblyNames
  methodBodies : o.methodBodies = o'.methodBodies
  customAttributes : o.customAttributes = o'.customAttributes

theorem Agrees.refl (o : Options) : o.Agrees o := ⟨rfl, rfl, rfl⟩

theorem withNamedTokens_and (o : Options) (bit : UInt32) :
    o.withNamedTokens.bits &&& bit = (o.bits &&& bit) ||| (1 &&& bit) :=
  UInt32.toBitVec_inj.1 (by simp [withNamedTokens, BitVec.and_or_distrib_right])

/-- The other bits stay. -/
theorem has_withNamedTokens (o : Options) {bit : UInt32} (h : 1 &&& bit = 0) :
    o.withNamedTokens.has bit = o.has bit := by
  rw [has, withNamedTokens_and, h, UInt32.or_zero, has]

theorem Agrees.withNamedTokens (o : Options) : o.Agrees o.withNamedTokens where
  fullAssemblyNames := (o.has_withNamedTokens rfl).symm
  methodBodies := (o.has_withNamedTokens rfl).symm
  customAttributes := (o.has_withNamedTokens rfl).symm

theorem namedTokens_withNamedTokens (o : Options) : o.withNamedTokens.namedTokens = true := by
  rw [namedTokens, has, withNamedTokens_and]
  simp

end Options

/-! ### Readers -/

/-- A closed catalog with names as tokens. -/
structure Horizon where
  catalog : Catalog
  closed : catalog.Closed
  named : catalog.options.namedTokens = true

variable {H : Horizon} {m : Source} {ρ ρ' σ σ' : Reader}

/-- In place of a name the index of its position. -/
def Horizon.number (H : Horizon) : Renaming := H.catalog.number

/-- The first reader has on record what the second has, with the positions of names in place of the names. -/
structure Like (H : Horizon) (ρ σ : Reader) : Prop where
  image : ρ.image = σ.image
  indexed : ρ.catalog.options.namedTokens = false
  options : σ.catalog.options = ρ.catalog.options.withNamedTokens
  types : Alike (H.number .type) id (TypeData.rename H.number) ρ.registry.types ρ.catalog.types
    σ.registry.types σ.catalog.types
  fields : Alike (H.number .field) (MemberIdentity.rename H.number) (FieldData.rename H.number)
    ρ.registry.fields ρ.catalog.fields σ.registry.fields σ.catalog.fields
  methods : Alike (H.number .method) (MemberIdentity.rename H.number) (MethodData.rename H.number)
    ρ.registry.methods ρ.catalog.methods σ.registry.methods σ.catalog.methods

section Positions

variable {named : Bool} {ι δ : Type} {t : TokenMap named (Entity ι δ)} {k : EntityKind}

/-- Tokens that have entries later are told apart by their numbers. -/
theorem Horizon.number_inj (h : t.keys <+: H.catalog.keys k) (a : Token) (ha : a ∈ t.keys) (b : Token)
    (hb : b ∈ t.keys) (heq : H.number k a = H.number k b) : a = b :=
  Catalog.number_inj H.named (h.subset ha) (h.subset hb) heq

/-- Their numbers are their positions. -/
theorem Horizon.number_position (h : t.keys <+: H.catalog.keys k) {n : Nat} {a : Token}
    (ha : t.keys[n]? = some a) (hn : n < 0x80000000) : H.number k a = .index (Int32.ofNat n) := by
  obtain ⟨ks, hks⟩ := h
  refine Catalog.number_of_position ?_ hn
  rw [← hks, List.getElem?_append_left (List.getElem?_eq_some_iff.1 ha).1, ha]

end Positions

/-- Members that are on record are told apart by their names and trees with numbers. -/
theorem Horizon.same_members {a b : MemberIdentity} (ha : H.catalog.Covers a.uses)
    (hb : H.catalog.Covers b.uses) :
    Identity.same (a.rename H.number) (b.rename H.number) = Identity.same a b := by
  have iff (a b : MemberIdentity) : Identity.same a b = true ↔ a = b :=
    ⟨fun h => eq_of_same trivial trivial h, fun h => h ▸ same_self a⟩
  rw [Bool.eq_iff_iff, iff, iff]
  refine ⟨fun h => ?_, fun h => congrArg _ h⟩
  exact MemberIdentity.rename_inj (P := fun u => u.token ∈ H.catalog.keys u.kind)
    (fun k _ _ ht ht' => Catalog.number_inj (k := k) H.named ht ht') ha hb h

/-- The tokens in the identity of a member that is on record have entries later. -/
theorem Horizon.covers_member {δ : Type} {data : δ → List Use} {named named' : Bool}
    {l : Ledger MemberIdentity} {t : TokenMap named (Entity MemberIdentity δ)}
    {t' : TokenMap named' (Entity MemberIdentity δ)} (hb : Books l t)
    (hg : t.Grows (fun e e' => e'.identity = e.identity) t')
    (closed : ∀ e ∈ t'.values, H.catalog.Covers (e.uses MemberIdentity.uses data))
    {id : MemberIdentity} {r : Registration} (hr : l.find? id = some r) : H.catalog.Covers id.uses := by
  obtain ⟨e, he, rfl, -⟩ := hb.found id r trivial hr
  obtain ⟨e', he', hid⟩ := hg.get? he
  have := closed e' (TokenMap.mem_values_of_get? he')
  rw [Entity.uses, Catalog.covers_append, hid] at this
  exact this.1

/-- A member that is registered is told apart from those on record before as it is with numbers. -/
theorem Horizon.same_registered {δ : Type} {data : δ → List Use} {named named' : Bool}
    {l l' : Ledger MemberIdentity} {t t' : TokenMap named (Entity MemberIdentity δ)}
    {t'' : TokenMap named' (Entity MemberIdentity δ)} {e : Entity MemberIdentity δ} {level : Level}
    {u : Registered} (step : RegisterStep l t e level u l' t') (hb : Books l t) (hb' : Books l' t')
    (hg : t'.Grows (fun e e' => e'.identity = e.identity) t'')
    (closed : ∀ e ∈ t''.values, H.catalog.Covers (e.uses MemberIdentity.uses data)) :
    ∀ x ∈ l, Identity.same (x.1.rename H.number) (e.identity.rename H.number) =
      Identity.same x.1 e.identity := by
  intro x hx
  obtain ⟨r, hr⟩ := Ledger.find?_of_mem hx
  obtain ⟨r', hr', -⟩ := step.grows hb trivial _ r trivial hr
  obtain ⟨r'', hr'', -⟩ := step.recorded
  exact H.same_members (H.covers_member hb' hg closed hr') (H.covers_member hb' hg closed hr'')

/-! ### Registrations -/

section Register

variable {u u' : Registered} {level : Level}

/-- Registering a type keeps the books, and every entry its position, its token and its identity. -/
theorem Sound.registerType {e : TypeEntity} (hs : Sound m σ) (he : Normal e.identity)
    (hl : .reference ≤ level) (hd : e.isDefinition = true ↔ .definition ≤ level)
    (h : Gives (Reading.registerType e level) σ u σ') : Sound m σ' ∧ σ.catalog.Keeps σ'.catalog := by
  obtain ⟨l, t, step, rfl⟩ := step_of_registerType hs he h
  exact ⟨⟨hs.image, hs.options, step.books hs.types he hl hd, hs.fields, hs.methods⟩,
    { Catalog.Keeps.refl σ.catalog with
      types := step.entries (fun _ => rfl) hs.types he fun _ _ _ hid => hid.symm }⟩

theorem Sound.registerField {e : FieldEntity} (hs : Sound m σ)
    (hl : .reference ≤ level) (hd : e.isDefinition = true ↔ .definition ≤ level)
    (h : Gives (Reading.registerField e level) σ u σ') : Sound m σ' ∧ σ.catalog.Keeps σ'.catalog := by
  obtain ⟨l, t, step, rfl⟩ := step_of_registerField hs h
  exact ⟨⟨hs.image, hs.options, hs.types, step.books hs.fields trivial hl hd, hs.methods⟩,
    { Catalog.Keeps.refl σ.catalog with
      fields := step.entries (fun _ => rfl) hs.fields trivial fun _ _ _ hid => hid.symm }⟩

theorem Sound.registerMethod {e : MethodEntity} (hs : Sound m σ)
    (hl : .reference ≤ level) (hd : e.isDefinition = true ↔ .definition ≤ level)
    (h : Gives (Reading.registerMethod e level) σ u σ') : Sound m σ' ∧ σ.catalog.Keeps σ'.catalog := by
  obtain ⟨l, t, step, rfl⟩ := step_of_registerMethod hs h
  exact ⟨⟨hs.image, hs.options, hs.types, hs.fields, step.books hs.methods trivial hl hd⟩,
    { Catalog.Keeps.refl σ.catalog with
      methods := step.entries (fun _ => rfl) hs.methods trivial fun _ _ _ hid => hid.symm }⟩

/-- A type that is registered in both readers. -/
theorem Like.registerType {e : TypeEntity} (h : Like H ρ σ) (hs : Sound m σ) (he : Normal e.identity)
    (hu : Gives (Reading.registerType (e.rename H.number) level) ρ u ρ')
    (hu' : Gives (Reading.registerType e level) σ u' σ') (hk : σ'.catalog.Keeps H.catalog) :
    u = u'.rename (H.number .type) ∧ Like H ρ' σ' := by
  obtain ⟨l', t', step', rfl⟩ := step_of_registerType hs he hu'
  have used := h.types.used hs.types he fun _ _ => rfl
  obtain ⟨l, t, step, rfl⟩ := Reader.Part.types.registers (by rwa [TypeEntity.rename, Entity.identity_map]) hu
  have keys : t'.keys <+: H.catalog.keys .type := hk.types.keys
  obtain ⟨rfl, types⟩ := h.types.register (fun _ _ => rfl) (H.number_inj keys)
    (H.number_position keys) h.indexed step step'
  exact ⟨rfl, { h with types := types }⟩

theorem Like.registerField {e : FieldEntity} (h : Like H ρ σ) (hs : Sound m σ)
    (hl : .reference ≤ level) (hd : e.isDefinition = true ↔ .definition ≤ level)
    (hu : Gives (Reading.registerField (e.rename H.number) level) ρ u ρ')
    (hu' : Gives (Reading.registerField e level) σ u' σ') (hk : σ'.catalog.Keeps H.catalog) :
    u = u'.rename (H.number .field) ∧ Like H ρ' σ' := by
  obtain ⟨l', t', step', rfl⟩ := step_of_registerField hs hu'
  have same := H.same_registered step' hs.fields (step'.books hs.fields trivial hl hd) hk.fields
    (Catalog.covers_uses.1 H.closed).2.1
  have used := h.fields.used hs.fields (show Normal e.identity from trivial) same
  obtain ⟨l, t, step, rfl⟩ := Reader.Part.fields.registers (by rwa [FieldEntity.rename, Entity.identity_map]) hu
  have keys : t'.keys <+: H.catalog.keys .field := hk.fields.keys
  obtain ⟨rfl, fields⟩ := h.fields.register same (H.number_inj keys) (H.number_position keys)
    h.indexed step step'
  exact ⟨rfl, { h with fields := fields }⟩

theorem Like.registerMethod {e : MethodEntity} (h : Like H ρ σ) (hs : Sound m σ)
    (hl : .reference ≤ level) (hd : e.isDefinition = true ↔ .definition ≤ level)
    (hu : Gives (Reading.registerMethod (e.rename H.number) level) ρ u ρ')
    (hu' : Gives (Reading.registerMethod e level) σ u' σ') (hk : σ'.catalog.Keeps H.catalog) :
    u = u'.rename (H.number .method) ∧ Like H ρ' σ' := by
  obtain ⟨l', t', step', rfl⟩ := step_of_registerMethod hs hu'
  have same := H.same_registered step' hs.methods (step'.books hs.methods trivial hl hd) hk.methods
    (Catalog.covers_uses.1 H.closed).2.2
  have used := h.methods.used hs.methods (show Normal e.identity from trivial) same
  obtain ⟨l, t, step, rfl⟩ := Reader.Part.methods.registers (by rwa [MethodEntity.rename, Entity.identity_map]) hu
  have keys : t'.keys <+: H.catalog.keys .method := hk.methods.keys
  obtain ⟨rfl, methods⟩ := h.methods.register same (H.number_inj keys) (H.number_position keys)
    h.indexed step step'
  exact ⟨rfl, { h with methods := methods }⟩

end Register

/-! ### Computations -/

/-- The second computation keeps the books and the positions.  If both succeed from readers that are like each other, what they give differs by `v`, and the readers stay like each other. -/
structure Mirrors (m : Source) (H : Horizon) {α : Type} (x y : Reading α) (v : α → α) : Prop where
  keeps : ∀ {σ}, Sound m σ → Sound m (y σ).2 ∧ σ.catalog.Keeps (y σ).2.catalog
  same : ∀ {ρ σ a b ρ' σ'}, Sound m σ → Like H ρ σ → Gives x ρ a ρ' → Gives y σ b σ' →
    σ'.catalog.Keeps H.catalog → a = v b ∧ Like H ρ' σ'

namespace Mirrors

variable {α β : Type} {x y : Reading α} {v : α → α} {w : β → β}

/-- Where both computations succeed, the second keeps the books and the positions. -/
theorem kept (h : Mirrors m H x y v) {b : α} (hs : Sound m σ) (hy : Gives y σ b σ') :
    Sound m σ' ∧ σ.catalog.Keeps σ'.catalog := by
  have := h.keeps hs
  rwa [show y σ = (.ok b, σ') from hy] at this

theorem of_unchanged (still : ∀ σ, (y σ).2 = σ)
    (same : ∀ {ρ σ a b ρ' σ'}, Like H ρ σ → Gives x ρ a ρ' → Gives y σ b σ' → a = v b ∧ ρ' = ρ) :
    Mirrors m H x y v where
  keeps {σ} hs := by
    rw [still σ]
    exact ⟨hs, .refl _⟩
  same {ρ σ a b ρ' σ'} _ h hx hy _ := by
    have : σ' = σ := by rw [← still σ, show y σ = (.ok b, σ') from hy]
    obtain ⟨rfl, rfl⟩ := same h hx hy
    exact ⟨rfl, this ▸ h⟩

theorem pure {a b : α} (h : a = v b) : Mirrors m H (pure a) (pure b) v :=
  of_unchanged (fun _ => rfl) fun _ hx hy => by
    obtain ⟨rfl, rfl⟩ := gives_pure.1 hx
    obtain ⟨rfl, -⟩ := gives_pure.1 hy
    exact ⟨h, rfl⟩

theorem absent (v : α → α) : Mirrors m H (Pure.pure none) (Pure.pure none) (Option.map v) := pure rfl

/-- Where the second fails there is nothing to compare. -/
theorem throw {f : Failure ReadFault} : Mirrors m H x (throw f) v :=
  of_unchanged (fun _ => rfl) fun _ _ hy => absurd hy gives_throw

theorem refuse {f : ReadFault} : Mirrors m H x (Reading.refuse f) v := throw

theorem ofExcept {r r' : Except (Failure ReadFault) α}
    (h : ∀ {a b}, r = .ok a → r' = .ok b → a = v b) :
    Mirrors m H (MonadExcept.ofExcept r) (MonadExcept.ofExcept r') v :=
  of_unchanged (fun _ => by cases r' <;> rfl) fun _ hx hy => by
    obtain ⟨hr, rfl⟩ := gives_ofExcept.1 hx
    exact ⟨h hr (gives_ofExcept.1 hy).1, rfl⟩

theorem bind {f g : α → Reading β} (hx : Mirrors m H x y v) (hf : ∀ b, Mirrors m H (f (v b)) (g b) w) :
    Mirrors m H (x >>= f) (y >>= g) w where
  keeps {σ} hs := by
    have first := hx.keeps hs
    cases h : y σ with
    | mk r σ₁ =>
        rw [h] at first
        cases r with
        | error e =>
            rw [run_bind_error h]
            exact first
        | ok b =>
            rw [run_bind_ok h]
            obtain ⟨hs₂, hk₂⟩ := (hf b).keeps first.1
            exact ⟨hs₂, first.2.trans hk₂⟩
  same hs h hx' hy' hk := by
    obtain ⟨a, ρ₁, ha, hfa⟩ := gives_bind.1 hx'
    obtain ⟨b, σ₁, hb, hgb⟩ := gives_bind.1 hy'
    obtain ⟨hs₁, -⟩ := hx.kept hs hb
    obtain ⟨-, hk₂⟩ := (hf b).kept hs₁ hgb
    obtain ⟨rfl, h₁⟩ := hx.same hs h ha hb (hk₂.trans hk)
    exact (hf b).same hs₁ h₁ hfa hgb hk

theorem map {f g : α → β} (hx : Mirrors m H x y v) (h : ∀ b, f (v b) = w (g b)) :
    Mirrors m H (f <$> x) (g <$> y) w := by
  rw [map_eq_pure_bind, map_eq_pure_bind]
  exact hx.bind fun b => pure (h b)

theorem ite {p : Prop} [Decidable p] {x' y' : Reading α} (h : Mirrors m H x y v)
    (h' : Mirrors m H x' y' v) : Mirrors m H (if p then x else x') (if p then y else y') v := by
  split
  · exact h
  · exact h'

theorem mapM {f g : α → Reading β} (as : List α) (h : ∀ a, Mirrors m H (f a) (g a) w) :
    Mirrors m H (as.mapM f) (as.mapM g) (List.map w) := by
  induction as with
  | nil => exact pure rfl
  | cons a as ih =>
      rw [List.mapM_cons, List.mapM_cons]
      exact (h a).bind fun _ => ih.bind fun _ => pure rfl

/-- Where what is given differs by `w a` for each `a`. -/
theorem mapM_zip {f g : α → Reading β} {w : α → β → β} (as : List α)
    (h : ∀ a, Mirrors m H (f a) (g a) (w a)) :
    Mirrors m H (as.mapM f) (as.mapM g) (List.zipWith w as) := by
  induction as with
  | nil => exact pure rfl
  | cons a as ih =>
      rw [List.mapM_cons, List.mapM_cons]
      exact (h a).bind fun _ => ih.bind fun _ => pure rfl

theorem option_mapM {f g : α → Reading β} (o : Option α) (h : ∀ a, Mirrors m H (f a) (g a) w) :
    Mirrors m H (o.mapM f) (o.mapM g) (Option.map w) := by
  cases o with
  | none => exact pure rfl
  | some a => exact (h a).map fun _ => rfl

/-- What is seen of the readers is related by `R`. -/
theorem view {R : β → β → Prop} {p q : Reader → β} {f g : β → Reading α}
    (like : ∀ {ρ σ}, Sound m σ → Like H ρ σ → σ.catalog.Keeps H.catalog → R (p ρ) (q σ))
    (total : ∀ {σ}, Sound m σ → ∃ a, R a (q σ))
    (h : ∀ {a b}, R a b → Mirrors m H (f a) (g b) v) :
    Mirrors m H (get >>= fun r => f (p r)) (get >>= fun r => g (q r)) v where
  keeps {σ} hs := by
    obtain ⟨a, ha⟩ := total hs
    rw [run_bind_ok (x := MonadState.get) (v := σ) rfl]
    exact (h ha).keeps hs
  same hs hl hx hy hk := by
    obtain ⟨_, _, hg, hx⟩ := gives_bind.1 hx
    obtain ⟨rfl, rfl⟩ := gives_get.1 hg
    obtain ⟨_, _, hg, hy⟩ := gives_bind.1 hy
    obtain ⟨rfl, rfl⟩ := gives_get.1 hg
    -- the relation is there once the first computation has been reached
    obtain ⟨a, ha⟩ := total hs
    obtain ⟨-, hk'⟩ := (h ha).kept hs hy
    exact (h (like hs hl (hk'.trans hk))).same hs hl hx hy hk

/-- The options are the same up to what tokens are. -/
theorem options {f g : Options → Reading α} (h : ∀ {o o' : Options}, o.Agrees o' →
    Mirrors m H (f o) (g o') v) : Mirrors m H (Reading.options >>= f) (Reading.options >>= g) v := by
  have run (f : Options → Reading α) :
      (Reading.options >>= f) = (get >>= fun r : Reader => f r.catalog.options) := by
    rw [Reading.options, bind_assoc]
    rfl
  rw [run, run]
  refine view (R := Options.Agrees) (fun _ hl _ => ?_) (fun _ => ⟨_, .refl _⟩) h
  rw [hl.options]
  exact .withNamedTokens _

/-! ### Registering -/

theorem registering
    {f g : Registry → Catalog → Except RegistryFault (Registered × Registry × Catalog)}
    {v : Registered → Registered}
    (keeps : ∀ {σ u σ'}, Sound m σ → Gives (Reading.registering g) σ u σ' →
      Sound m σ' ∧ σ.catalog.Keeps σ'.catalog)
    (same : ∀ {ρ σ u u' ρ' σ'}, Sound m σ → Like H ρ σ → Gives (Reading.registering f) ρ u ρ' →
      Gives (Reading.registering g) σ u' σ' → σ'.catalog.Keeps H.catalog → u = v u' ∧ Like H ρ' σ') :
    Mirrors m H (Reading.registering f) (Reading.registering g) v where
  keeps {σ} hs := by
    rcases registering_outcome g σ with ⟨u, σ', hu⟩ | ⟨e, he⟩
    · rw [show Reading.registering g σ = (.ok u, σ') from hu]
      exact keeps hs hu
    · rw [he]
      exact ⟨hs, .refl _⟩
  same := same

section Register

variable {level : Level}

theorem registerType {e e' : TypeEntity} (he : e' = e.rename H.number) (hid : Normal e.identity)
    (hl : .reference ≤ level) (hd : e.isDefinition = true ↔ .definition ≤ level) :
    Mirrors m H (Reading.registerType e' level) (Reading.registerType e level)
      (Registered.rename (H.number .type)) := by
  subst he
  exact registering (fun hs hu => hs.registerType hid hl hd hu)
    fun hs h hu hu' hk => h.registerType hs hid hu hu' hk

theorem registerField {e e' : FieldEntity} (he : e' = e.rename H.number)
    (hl : .reference ≤ level) (hd : e.isDefinition = true ↔ .definition ≤ level) :
    Mirrors m H (Reading.registerField e' level) (Reading.registerField e level)
      (Registered.rename (H.number .field)) := by
  subst he
  exact registering (fun hs hu => hs.registerField hl hd hu)
    fun hs h hu hu' hk => h.registerField hs hl hd hu hu' hk

theorem registerMethod {e e' : MethodEntity} (he : e' = e.rename H.number)
    (hl : .reference ≤ level) (hd : e.isDefinition = true ↔ .definition ≤ level) :
    Mirrors m H (Reading.registerMethod e' level) (Reading.registerMethod e level)
      (Registered.rename (H.number .method)) := by
  subst he
  exact registering (fun hs hu => hs.registerMethod hl hd hu)
    fun hs h hu hu' hk => h.registerMethod hs hl hd hu hu' hk

end Register

end Mirrors

end CilCatalog
