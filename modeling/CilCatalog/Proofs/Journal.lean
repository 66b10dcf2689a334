import CilCatalog.Proofs.Ledger

/-!
# What a registry makes of its requests

A registrar serves requests one after the other; each is granted, or refused and forgotten.  The granted ones of one kind, with what was told, are that kind's *journal*.  In a catalog with indices the journal says all there is to know about the registry and the catalog:

* `Journal.Kept`: distinct identities have the indices in the order they came, every entity is the one of the earliest receipt at the highest level, and every receipt tells the token of its identity and the level that was on record.
* `Journal.Kept.grant`: one more registration keeps this up; `Journal.Kept.blocked_iff` says what stands in the way of one, and `Journal.Kept.rises` that it lowers no level.
* `Registrar.accounts_kept`: so it is after every sequence of requests.
-/

namespace CilCatalog

/-! ### Identities as keys -/

/-- Identities that are compared by an equivalence. -/
class LawfulIdentity (ι : Type) [Identity ι] : Prop where
  same_refl : ∀ a : ι, Identity.same a a = true
  same_symm : ∀ {a b : ι}, Identity.same a b = true → Identity.same b a = true
  same_trans : ∀ {a b c : ι}, Identity.same a b = true → Identity.same b c = true →
    Identity.same a c = true

export LawfulIdentity (same_refl same_symm same_trans)

instance : LawfulIdentity TypeIdentity where
  same_refl := Comparison.reference.typeIdentity_self
  same_symm := Comparison.reference.typeIdentity_symm
  same_trans := Comparison.reference.typeIdentity_trans

instance : LawfulIdentity MemberIdentity where
  same_refl := Comparison.reference.memberIdentity_self
  same_symm h := by
    obtain rfl := Comparison.reference.memberIdentity_eq_true.1 h
    exact h
  same_trans h h' := by
    obtain rfl := Comparison.reference.memberIdentity_eq_true.1 h
    exact h'

section Same

variable {ι : Type} [Identity ι] [LawfulIdentity ι] {a b c : ι}

theorem same_congr_left (h : Identity.same a b = true) : Identity.same a c = Identity.same b c := by
  rw [Bool.eq_iff_iff]
  exact ⟨same_trans (same_symm h), same_trans h⟩

theorem same_congr_right (h : Identity.same a b = true) : Identity.same c a = Identity.same c b := by
  rw [Bool.eq_iff_iff]
  exact ⟨fun h' => same_trans h' h, fun h' => same_trans h' (same_symm h)⟩

namespace Ledger

variable {l : Ledger ι} {id id' : ι}

/-- An identity is on record if another one for the same entity is. -/
theorem find?_congr (h : Identity.same id id' = true) : l.find? id = l.find? id' := by
  induction l with
  | nil => rfl
  | cons e l ih => rw [find?_cons, find?_cons, ih, same_congr_right h]

theorem find?_record (r : Registration) :
    (l.record id r).find? id' = if Identity.same id id' then some r else l.find? id' := by
  induction l with
  | nil => rw [record, find?_cons]
  | cons e l ih =>
      rw [record]
      split
      · next he =>
          rw [find?_cons, find?_cons, same_congr_left he]
          split <;> rfl
      · next he =>
          rw [find?_cons, find?_cons, ih]
          split
          · next he' =>
              -- the identity of `e` would be the same as both
              rw [if_neg fun h => he (same_trans he' (same_symm h))]
          · rfl

end Ledger

end Same

/-! ### Journals -/

/-- A request that was granted: what was to be registered, at which level, and what was told. -/
structure Receipt (ι δ : Type) where
  entity : Entity ι δ
  level : Level
  told : Registered

/-- The receipts of one kind of entity, in order. -/
abbrev Journal (ι δ : Type) := List (Receipt ι δ)

namespace Journal

variable {ι δ : Type} [Identity ι]

/-- The identities that are not the same as an earlier one. -/
def distinct (ids : List ι) : List ι :=
  ids.foldl (fun known id => if known.any (Identity.same · id) then known else known ++ [id]) []

/-- The distinct identities of a journal, in the order they came. -/
def identities (j : Journal ι δ) : List ι := distinct (j.map (·.entity.identity))

/-- The receipts for one identity. -/
def about (j : Journal ι δ) (id : ι) : Journal ι δ :=
  j.filter fun a => Identity.same id a.entity.identity

/-- The earliest receipt at the highest level. -/
def Top (j : Journal ι δ) (a : Receipt ι δ) : Prop :=
  ∃ before after, j = before ++ a :: after ∧ (∀ b ∈ before, b.level < a.level) ∧
    ∀ b ∈ after, b.level ≤ a.level

/-- The level that was on record for the identity of a receipt, given the journal before it; there being none, the level of the receipt. -/
def Recalls (before : Journal ι δ) (a : Receipt ι δ) : Prop :=
  (before.about a.entity.identity = [] ∧ a.told.oldLevel = a.level) ∨
    ∃ b, (before.about a.entity.identity).Top b ∧ a.told.oldLevel = b.level

/-- The ledger and the token map are what the journal says. -/
structure Kept {named : Bool} (j : Journal ι δ) (l : Ledger ι) (m : TokenMap named (Entity ι δ)) :
    Prop where
  /-- No two identities are the same. -/
  apart : j.identities.Pairwise fun id id' => Identity.same id id' = false
  /-- Every receipt is for one of the identities, and tells the index of that one. -/
  token : ∀ a ∈ j, ∃ (i : Nat) (id : ι), j.identities[i]? = some id ∧ Identity.same id a.entity.identity = true ∧
    a.told.token = .index (Int32.ofNat i)
  oldLevel : ∀ before a after, j = before ++ a :: after → Recalls before a
  /-- There are no other entities. -/
  size : m.size = j.identities.length
  /-- What is stored and on record for an identity is what the earliest receipt at the highest level says. -/
  top : ∀ (i : Nat) (id : ι), j.identities[i]? = some id → ∃ a, (j.about id).Top a ∧
    m.entries[i]? = some (.index (Int32.ofNat i), a.entity) ∧
    ∀ id', Identity.same id id' = true → l.find? id' = some ⟨.index (Int32.ofNat i), a.level⟩
  /-- There are no other registrations. -/
  unknown : ∀ id', (∀ id ∈ j.identities, Identity.same id id' = false) → l.find? id' = none

end Journal

namespace Journal

variable {ι δ : Type} [Identity ι] {j : Journal ι δ} {a : Receipt ι δ}

theorem identities_append (j : Journal ι δ) (a : Receipt ι δ) : (j ++ [a]).identities =
    if j.identities.any (Identity.same · a.entity.identity) then j.identities
    else j.identities ++ [a.entity.identity] := by
  rw [identities, identities, distinct, distinct, List.map_append, List.foldl_append]
  rfl

theorem about_append (j : Journal ι δ) (a : Receipt ι δ) (id : ι) : (j ++ [a]).about id =
    j.about id ++ if Identity.same id a.entity.identity then [a] else [] := by
  rw [about, about, List.filter_append, List.filter_singleton, cond_eq_ite]

theorem about_congr [LawfulIdentity ι] {id id' : ι} (h : Identity.same id id' = true) :
    j.about id = j.about id' := by
  rw [about, about]
  exact List.filter_congr fun a _ => same_congr_left h

/-! ### The earliest receipt at the highest level -/

omit [Identity ι] in
theorem Top.le (h : j.Top a) : ∀ b ∈ j, b.level ≤ a.level := by
  obtain ⟨before, after, rfl, hb, ha⟩ := h
  intro b hm
  rcases List.mem_append.1 hm with hm | hm
  · exact Level.le_of_lt (hb b hm)
  · rcases List.mem_cons.1 hm with rfl | hm
    · exact Level.le_refl _
    · exact ha b hm

omit [Identity ι] in
/-- A receipt at no higher level leaves the top where it is. -/
theorem Top.append_le {b : Receipt ι δ} (h : j.Top a) (hb : b.level ≤ a.level) : (j ++ [b]).Top a := by
  obtain ⟨before, after, rfl, h₁, h₂⟩ := h
  refine ⟨before, after ++ [b], by simp, h₁, fun c hc => ?_⟩
  rcases List.mem_append.1 hc with hc | hc
  · exact h₂ c hc
  · cases List.mem_singleton.1 hc
    exact hb

omit [Identity ι] in
/-- A receipt at a higher level is the top. -/
theorem Top.append_lt {b : Receipt ι δ} (h : ∀ c ∈ j, c.level < b.level) : (j ++ [b]).Top b :=
  ⟨j, [], rfl, h, nofun⟩

end Journal

namespace Journal

variable {named : Bool} {ι δ : Type} [Identity ι] [LawfulIdentity ι] {j : Journal ι δ} {l l' : Ledger ι}
  {m m' : TokenMap named (Entity ι δ)} {e : Entity ι δ} {level : Level} {u : Registered}

omit [LawfulIdentity ι] in
theorem kept_nil : Kept ([] : Journal ι δ) ([] : Ledger ι) (.empty : TokenMap named (Entity ι δ)) where
  apart := .nil
  token := nofun
  oldLevel := fun before a after h => by
    cases before <;> exact nomatch h
  size := rfl
  top := nofun
  unknown := fun _ _ => rfl

namespace Kept

omit [LawfulIdentity ι] in
/-- What is on record is on record for one of the identities. -/
theorem found (h : j.Kept l m) {id' : ι} {r : Registration} (hr : l.find? id' = some r) :
    ∃ (i : Nat) (id : ι), j.identities[i]? = some id ∧ Identity.same id id' = true := by
  cases hany : j.identities.any (Identity.same · id') with
  | true =>
      obtain ⟨id, hid, hs⟩ := List.any_eq_true.1 hany
      obtain ⟨i, hi⟩ := List.mem_iff_getElem?.1 hid
      exact ⟨i, id, hi, hs⟩
  | false =>
      have hall : ∀ id ∈ j.identities, Identity.same id id' = false := fun id hid => by
        simpa using List.any_eq_false.1 hany id hid
      rw [h.unknown id' hall] at hr
      exact nomatch hr

/-- What is on record for an identity is what the earliest receipt at the highest level says. -/
theorem top_of_find? (h : j.Kept l m) {id' : ι} {r : Registration} (hr : l.find? id' = some r) :
    ∃ (i : Nat) (a : Receipt ι δ), (j.about id').Top a ∧ r = ⟨.index (Int32.ofNat i), a.level⟩ ∧
      m.entries[i]? = some (r.token, a.entity) ∧
      ∃ id : ι, j.identities[i]? = some id ∧ Identity.same id id' = true := by
  obtain ⟨i, id, hi, hs⟩ := h.found hr
  obtain ⟨a, ha, hm, hf⟩ := h.top i id hi
  cases hr.symm.trans (hf id' hs)
  exact ⟨i, a, about_congr hs ▸ ha, rfl, hm, id, hi, hs⟩

theorem used (h : j.Kept l m) : ∀ r, l.find? e.identity = some r → r.token ∈ m.keys := by
  intro r hr
  obtain ⟨i, a, -, -, hm, -⟩ := h.top_of_find? hr
  exact List.mem_map_of_mem (List.mem_of_getElem? hm)

omit [LawfulIdentity ι] in
/-- A receipt for an identity on record adds no identity. -/
theorem identities_known (h : j.Kept l m) {r : Registration} {a : Receipt ι δ}
    (hr : l.find? a.entity.identity = some r) : (j ++ [a]).identities = j.identities := by
  obtain ⟨i, id, hi, hs⟩ := h.found hr
  rw [identities_append, if_pos]
  exact List.any_eq_true.2 ⟨id, List.mem_of_getElem? hi, hs⟩

omit [LawfulIdentity ι] in
/-- Receipts tell indices still, if one more for an identity on record tells the token on record. -/
theorem token_known (h : j.Kept l m) {r : Registration} {a : Receipt ι δ} (hr : l.find? a.entity.identity = some r)
    (ha : a.told.token = r.token) : ∀ x ∈ j ++ [a], ∃ (i : Nat) (id : ι), (j ++ [a]).identities[i]? = some id ∧
      Identity.same id x.entity.identity = true ∧ x.told.token = .index (Int32.ofNat i) := by
  rw [h.identities_known hr]
  intro x hx
  rcases List.mem_append.1 hx with hx | hx
  · exact h.token x hx
  · cases List.mem_singleton.1 hx
    obtain ⟨i, id, hi, hs⟩ := h.found hr
    obtain ⟨_, -, -, hf⟩ := h.top i id hi
    exact ⟨i, id, hi, hs, ha.trans (congrArg Registration.token (Option.some.inj (hr.symm.trans (hf _ hs))))⟩

omit [LawfulIdentity ι] in
/-- An identity that is not on record is none of the identities. -/
theorem unlike_of_find? (h : j.Kept l m) {id' : ι} (hn : l.find? id' = none) :
    ∀ id ∈ j.identities, Identity.same id id' = false := by
  intro id hid
  obtain ⟨i, hi⟩ := List.mem_iff_getElem?.1 hid
  obtain ⟨a, -, -, hf⟩ := h.top i id hi
  cases hs : Identity.same id id' with
  | false => rfl
  | true =>
      rw [hf id' hs] at hn
      cases hn

omit [LawfulIdentity ι] in
/-- A receipt for an identity that is not on record adds that identity. -/
theorem identities_new (h : j.Kept l m) {a : Receipt ι δ} (hn : l.find? a.entity.identity = none) :
    (j ++ [a]).identities = j.identities ++ [a.entity.identity] := by
  rw [identities_append, if_neg]
  rw [Bool.not_eq_true, List.any_eq_false]
  exact fun id hid => Bool.not_eq_true _ ▸ h.unlike_of_find? hn id hid

/-- There is no receipt for an identity that is not on record. -/
theorem about_new (h : j.Kept l m) {id' : ι} (hn : l.find? id' = none) : j.about id' = [] := by
  rw [about, List.filter_eq_nil_iff]
  intro a ha hs
  obtain ⟨i, id, hi, hs', -⟩ := h.token a ha
  have := h.unlike_of_find? hn id (List.mem_of_getElem? hi)
  rw [same_trans hs' (same_symm hs)] at this
  cases this

omit [LawfulIdentity ι] in
/-- The last receipt of a journal recalls what the others say. -/
theorem oldLevel_append (h : j.Kept l m) {x : Receipt ι δ} (hx : Recalls j x) (before : Journal ι δ)
    (a : Receipt ι δ) (after : Journal ι δ) (hj : j ++ [x] = before ++ a :: after) : Recalls before a := by
  rcases List.eq_nil_or_concat after with rfl | ⟨after, y, rfl⟩
  · obtain ⟨rfl, hxa⟩ := List.append_inj' hj rfl
    cases hxa
    exact hx
  · rw [List.concat_eq_append, ← List.cons_append, ← List.append_assoc] at hj
    exact h.oldLevel before a after (List.append_inj' hj rfl).1

/-! ### One more receipt -/

/-- The entity is on record at the level, or at a higher one. -/
theorem known (h : j.Kept l m) {r : Registration} (hr : l.find? e.identity = some r)
    (hl : level ≤ r.level) : (j ++ [Receipt.mk e level ⟨r.token, r.level⟩]).Kept l m := by
  have same : (j ++ [Receipt.mk e level ⟨r.token, r.level⟩]).identities = j.identities :=
    h.identities_known (a := .mk e level ⟨r.token, r.level⟩) hr
  obtain ⟨i, a, top, hra, -⟩ := h.top_of_find? hr
  refine ⟨same ▸ h.apart, h.token_known hr rfl, ?oldLevel, same ▸ h.size, ?top, same ▸ h.unknown⟩
  case oldLevel => exact h.oldLevel_append (.inr ⟨a, top, congrArg Registration.level hra⟩)
  case top =>
    rw [same]
    intro k id' hk
    obtain ⟨b, hb, hmb, hf⟩ := h.top k id' hk
    refine ⟨b, ?_, hmb, hf⟩
    rw [about_append]
    split
    · next hs' =>
        -- the level on record is the one of `b`
        cases hr.symm.trans (hf _ hs')
        exact hb.append_le hl
    · rwa [List.append_nil]

/-- The entity is on record at a lower level. -/
theorem raised (h : j.Kept l m) {r : Registration} (hr : l.find? e.identity = some r)
    (hl : r.level < level) : (j ++ [Receipt.mk e level ⟨r.token, r.level⟩]).Kept
      (l.record e.identity ⟨r.token, level⟩) (m.replace r.token e) := by
  have same : (j ++ [Receipt.mk e level ⟨r.token, r.level⟩]).identities = j.identities :=
    h.identities_known (a := .mk e level ⟨r.token, r.level⟩) hr
  obtain ⟨i, a, top, hra, hm, id, hi, hs⟩ := h.top_of_find? hr
  refine ⟨same ▸ h.apart, h.token_known hr rfl, ?oldLevel, ?size, ?top, ?unknown⟩
  case oldLevel => exact h.oldLevel_append (.inr ⟨a, top, congrArg Registration.level hra⟩)
  case size =>
    rw [same, ← h.size]
    exact List.length_map _
  case top =>
    rw [same]
    intro k id' hk
    obtain ⟨b, hb, hmb, hf⟩ := h.top k id' hk
    have entry : (m.replace r.token e).entries[k]? =
        some (.index (Int32.ofNat k), if .index (Int32.ofNat k) = r.token then e else b.entity) := by
      rw [TokenMap.replace, List.getElem?_map, hmb, Option.map_some]
      split <;> rfl
    rw [about_append]
    split
    · next hs' =>
        cases hr.symm.trans (hf _ hs')
        refine ⟨_, .append_lt fun c hc => ?_, by rw [entry, if_pos rfl], fun id'' h'' => ?_⟩
        · exact Level.lt_of_le_of_lt (hb.le c hc) hl
        · rw [Ledger.find?_record, if_pos (same_trans (same_symm hs') h'')]
    · next hs' =>
        -- the token of `e` is at another place
        have hne : Token.index (Int32.ofNat k) ≠ r.token := by
          intro ht
          have hki : m.keys[k]? = m.keys[i]? := by
            rw [TokenMap.keys, List.getElem?_map, List.getElem?_map, hmb, hm, ht]
            rfl
          have hlt : k < m.keys.length :=
            (List.getElem?_eq_some_iff.1 ((List.getElem?_map).trans (congrArg _ hmb))).1
          obtain rfl := (List.getElem?_inj hlt (nodup_of_wellKeyed m.wellKeyed)).1 hki
          cases hi.symm.trans hk
          exact hs' hs
        refine ⟨b, ?_, by rw [entry, if_neg hne], fun id'' h'' => ?_⟩
        · rwa [List.append_nil]
        · rw [Ledger.find?_record, if_neg fun h => hs' (same_trans h'' (same_symm h)), hf id'' h'']
  case unknown =>
    rw [same]
    intro id' hall
    rw [Ledger.find?_record, if_neg, h.unknown id' hall]
    intro h'
    have := hall id (List.mem_of_getElem? hi)
    rw [same_trans hs h'] at this
    cases this

/-- The entity is new. -/
theorem new (h : j.Kept l m) {t : Token} (hn : l.find? e.identity = none) (ht : t = .index (Int32.ofNat m.size))
    (ha : m.add t e = .ok m') :
    (j ++ [Receipt.mk e level ⟨t, level⟩]).Kept (l.record e.identity ⟨t, level⟩) m' := by
  have unlike := h.unlike_of_find? hn
  have more : (j ++ [Receipt.mk e level ⟨t, level⟩]).identities = j.identities ++ [e.identity] :=
    h.identities_new (a := .mk e level ⟨t, level⟩) hn
  have none : j.about e.identity = [] := h.about_new hn
  have last : (j.identities ++ [e.identity])[m.size]? = some e.identity := by
    rw [h.size]
    exact List.getElem?_concat_length
  have entries := TokenMap.entries_add ha
  constructor
  case apart =>
    rw [more]
    exact List.pairwise_append.2 ⟨h.apart, List.pairwise_singleton _ _, fun id hid id' hid' => by
      cases List.mem_singleton.1 hid'
      exact unlike id hid⟩
  case token =>
    rw [more]
    intro x hx
    rcases List.mem_append.1 hx with hx | hx
    · obtain ⟨i, id, hi, hs, htok⟩ := h.token x hx
      exact ⟨i, id, List.getElem?_append_left (List.getElem?_eq_some_iff.1 hi).1 ▸ hi, hs, htok⟩
    · cases List.mem_singleton.1 hx
      exact ⟨m.size, e.identity, last, same_refl _, ht⟩
  case oldLevel => exact h.oldLevel_append (.inl ⟨none, rfl⟩)
  case size =>
    rw [more, List.length_append, ← h.size, TokenMap.size, entries, List.length_append]
    rfl
  case top =>
    rw [more]
    intro k id hk
    -- an identity is one of those before, or the new one at the end
    rcases Nat.lt_or_ge k j.identities.length with hlt | hge
    · rw [List.getElem?_append_left hlt] at hk
      obtain ⟨b, hb, hmb, hf⟩ := h.top k id hk
      have hne := unlike id (List.mem_of_getElem? hk)
      refine ⟨b, ?_, ?_, fun id' h' => ?_⟩
      · rw [about_append, hne]
        simpa using hb
      · rw [entries, List.getElem?_append_left (List.getElem?_eq_some_iff.1 hmb).1, hmb]
      · rw [Ledger.find?_record, if_neg, hf id' h']
        intro hs
        rw [same_trans h' (same_symm hs)] at hne
        cases hne
    · have hk' : k = j.identities.length := by
        have := (List.getElem?_eq_some_iff.1 hk).1
        rw [List.length_append, List.length_singleton] at this
        omega
      subst hk'
      rw [← h.size] at hk ⊢
      cases last.symm.trans hk
      refine ⟨.mk e level ⟨t, level⟩, ?_, ?_, fun id' h' => ?_⟩
      · rw [about_append, none, if_pos (same_refl _)]
        exact ⟨[], [], rfl, by simp, by simp⟩
      · rw [entries, TokenMap.size, List.getElem?_concat_length, ← TokenMap.size, ht]
      · rw [Ledger.find?_record, if_pos h', ht]
  case unknown =>
    rw [more]
    intro id' hall
    rw [Ledger.find?_record, if_neg, h.unknown id' fun id hid => hall id (List.mem_append_left _ hid)]
    rw [hall e.identity (List.mem_append_right _ (List.mem_singleton_self _))]
    exact Bool.false_ne_true

end Kept

end Journal

/-- The registrations of the other ledger are not below those of this one, and have the same tokens. -/
def Ledger.Rises {ι : Type} [Identity ι] (l l' : Ledger ι) : Prop :=
  ∀ id r, l.find? id = some r → ∃ r', l'.find? id = some r' ∧ r'.token = r.token ∧ r.level ≤ r'.level

/-- A reference is to be defined, or an entity is new and all indices are taken. -/
def Blocked {named : Bool} {ι δ : Type} [Identity ι] (l : Ledger ι) (m : TokenMap named (Entity ι δ))
    (e : Entity ι δ) (level : Level) : Prop :=
  (level ≠ .reference ∧ e.isDefinition = false) ∨ (l.find? e.identity = none ∧ m.size = 0x80000000)

section Grant

variable {named : Bool} {ι δ : Type} [Identity ι] [LawfulIdentity ι] {j : Journal ι δ} {l l' : Ledger ι}
  {m m' : TokenMap named (Entity ι δ)} {e : Entity ι δ} {level : Level} {u : Registered}
  {fresh : (Token → Bool) → ι → Except RegistryFault Token}

/-- What is granted is kept, if tokens are indices. -/
theorem Journal.Kept.grant (indexed : named = false) (h : j.Kept l m)
    (granted : Registry.registerIn fresh l m e level = .ok (u, l', m')) :
    (j ++ [Receipt.mk e level u]).Kept l' m' := by
  subst indexed
  cases registerIn_step h.used granted with
  | known r hr hl => exact h.known hr hl
  | raised r hr hl hk => exact h.raised hr hl
  | new t m' hn ha =>
      have keyed := m'.wellKeyed
      rw [TokenMap.entries_add ha, List.map_append] at keyed
      have ht := (index_of_wellKeyed keyed).1
      rw [List.length_map] at ht
      exact h.new hn ht ha

/-- If tokens are indices, nothing else stands in the way of a registration. -/
theorem Journal.Kept.blocked_iff (indexed : named = false) (h : j.Kept l m) :
    (∃ f, Registry.registerIn fresh l m e level = .error f) ↔ Blocked l m e level := by
  subst indexed
  have room : m.size ≤ 0x80000000 := by
    have := m.wellKeyed.1
    rwa [List.length_map] at this
  unfold Registry.registerIn
  split
  · next hbad =>
      exact ⟨fun _ => .inl ⟨hbad.1, Bool.not_eq_true _ ▸ hbad.2⟩, fun _ => ⟨_, rfl⟩⟩
  · next hgood =>
      have hgood : ¬ (level ≠ .reference ∧ e.isDefinition = false) := fun hb =>
        hgood ⟨hb.1, by rw [hb.2]; exact Bool.false_ne_true⟩
      split
      · next r hr =>
          have ht := h.used r hr
          have set : m.set r.token e = .ok (m.replace r.token e) := by
            rw [TokenMap.set, TokenMap.contains, decide_eq_true ht, if_pos rfl]
          rw [set]
          constructor
          · rintro ⟨f, hf⟩
            split at hf
            · cases hf
            · cases hf
          · rintro (hb | ⟨hb, -⟩)
            · exact absurd hb hgood
            · rw [hr] at hb
              cases hb
      · next hn =>
          simp only [Registry.newToken, Bool.false_eq_true, if_false]
          rcases Nat.lt_or_ge m.size 0x80000000 with hlt | hge
          · -- there is room for one more index
            have keyed : WellKeyed false (m.keys ++ [.index (Int32.ofNat m.size)]) := by
              refine wellKeyed_append_index m.wellKeyed ?_
              rw [Int32.toInt_ofNat_of_lt hlt, TokenMap.keys, List.length_map]
              rfl
            obtain ⟨m', ha, -⟩ := add_of_wellKeyed e keyed
            rw [ha]
            constructor
            · rintro ⟨f, hf⟩
              cases hf
            · rintro (hb | ⟨-, hb⟩)
              · exact absurd hb hgood
              · omega
          · have full : m.size = 0x80000000 := Nat.le_antisymm room hge
            refine ⟨fun _ => .inr ⟨hn, full⟩, fun _ => ?_⟩
            cases ha : m.add (.index (Int32.ofNat m.size)) e with
            | error f => exact ⟨_, rfl⟩
            | ok m' =>
                -- the number of the next index does not fit
                have keyed := m'.wellKeyed.1
                rw [TokenMap.entries_add ha, List.length_map, List.length_append] at keyed
                have : m.entries.length = 0x80000000 := full
                simp only [List.length_singleton] at keyed
                omega

/-- Levels on record do not fall, and tokens stay. -/
theorem Journal.Kept.rises (h : j.Kept l m)
    (granted : Registry.registerIn fresh l m e level = .ok (u, l', m')) : l.Rises l' := by
  intro id r hr
  cases registerIn_step h.used granted with
  | known _ _ _ => exact ⟨r, hr, rfl, Level.le_refl _⟩
  | raised r₀ hr₀ hl hk =>
      rw [Ledger.find?_record]
      split
      · next hs =>
          rw [Ledger.find?_congr hs, hr] at hr₀
          cases hr₀
          exact ⟨_, rfl, rfl, Level.le_of_lt hl⟩
      · exact ⟨r, hr, rfl, Level.le_refl _⟩
  | new t m' hn ha =>
      rw [Ledger.find?_record, if_neg]
      · exact ⟨r, hr, rfl, Level.le_refl _⟩
      · intro hs
        rw [Ledger.find?_congr hs, hr] at hn
        exact nomatch hn

end Grant

/-! ### Registrars -/

/-- A registry and the catalog it fills. -/
structure Registrar where
  registry : Registry
  catalog : Catalog

/-- A request to register an entity at a level. -/
inductive Request where
  | type (e : TypeEntity) (level : Level)
  | field (e : FieldEntity) (level : Level)
  | method (e : MethodEntity) (level : Level)

namespace Registrar

/-- Nothing registered, in a catalog without entities. -/
def start (o : Options) : Registrar := ⟨.empty, .empty o⟩

/-- The answer to a request, and what becomes of the registrar if it is granted. -/
def serve (s : Registrar) : Request → Except RegistryFault (Registered × Registrar)
  | .type e level   => do
      let (u, g, c) ← s.registry.registerType s.catalog e level
      return (u, ⟨g, c⟩)
  | .field e level  => do
      let (u, g, c) ← s.registry.registerField s.catalog e level
      return (u, ⟨g, c⟩)
  | .method e level => do
      let (u, g, c) ← s.registry.registerMethod s.catalog e level
      return (u, ⟨g, c⟩)

/-- What becomes of the registrar: a request that is refused is forgotten. -/
def after (s : Registrar) (q : Request) : Registrar :=
  match s.serve q with
  | .ok (_, s') => s'
  | .error _    => s

/-- What becomes of the registrar after several requests. -/
def afterAll (s : Registrar) (qs : List Request) : Registrar := qs.foldl after s

/-- The requests that are granted, each with what is told. -/
def granted (s : Registrar) : List Request → List (Request × Registered)
  | []      => []
  | q :: qs =>
      match s.serve q with
      | .ok (u, s') => (q, u) :: granted s' qs
      | .error _    => granted s qs

end Registrar

/-! ### Accounts -/

namespace Registrar

/-- The journal of the types. -/
def types (gs : List (Request × Registered)) : Journal TypeIdentity TypeData :=
  gs.filterMap fun
    | (.type e level, u) => some ⟨e, level, u⟩
    | _                  => none

/-- The journal of the fields. -/
def fields (gs : List (Request × Registered)) : Journal MemberIdentity FieldData :=
  gs.filterMap fun
    | (.field e level, u) => some ⟨e, level, u⟩
    | _                   => none

/-- The journal of the methods. -/
def methods (gs : List (Request × Registered)) : Journal MemberIdentity MethodData :=
  gs.filterMap fun
    | (.method e level, u) => some ⟨e, level, u⟩
    | _                    => none

/-- Registry and catalog are what the journals say. -/
structure Accounts (s : Registrar) (gs : List (Request × Registered)) : Prop where
  indexed : s.catalog.options.namedTokens = false
  types : (types gs).Kept s.registry.types s.catalog.types
  fields : (fields gs).Kept s.registry.fields s.catalog.fields
  methods : (methods gs).Kept s.registry.methods s.catalog.methods

/-- The requests that are refused: besides those that are blocked, members that are to have children. -/
def Refuses (s : Registrar) : Request → Prop
  | .type e level   => Blocked s.registry.types s.catalog.types e level
  | .field e level  => level = .withChildren ∨ Blocked s.registry.fields s.catalog.fields e level
  | .method e level => level = .withChildren ∨ Blocked s.registry.methods s.catalog.methods e level

/-- No registration is lost, and no level falls. -/
structure Rises (s s' : Registrar) : Prop where
  types : s.registry.types.Rises s'.registry.types
  fields : s.registry.fields.Rises s'.registry.fields
  methods : s.registry.methods.Rises s'.registry.methods

variable {s s' : Registrar} {gs : List (Request × Registered)} {q : Request} {u : Registered}

theorem accounts_start {o : Options} (indexed : o.namedTokens = false) : (start o).Accounts [] :=
  ⟨indexed, Journal.kept_nil, Journal.kept_nil, Journal.kept_nil⟩

/-- A granted request has changed one kind of entity. -/
theorem serve_eq_ok (h : s.serve q = .ok (u, s')) :
    (∃ e level l m, q = .type e level ∧
      Registry.registerIn (fun m id => Registry.freshName m id.name) s.registry.types s.catalog.types e level =
        .ok (u, l, m) ∧ s' = ⟨{ s.registry with types := l }, { s.catalog with types := m }⟩) ∨
    (∃ e level l m, q = .field e level ∧
      Registry.registerIn Registry.freshMemberName s.registry.fields s.catalog.fields e level =
        .ok (u, l, m) ∧ s' = ⟨{ s.registry with fields := l }, { s.catalog with fields := m }⟩) ∨
    (∃ e level l m, q = .method e level ∧
      Registry.registerIn Registry.freshMemberName s.registry.methods s.catalog.methods e level =
        .ok (u, l, m) ∧ s' = ⟨{ s.registry with methods := l }, { s.catalog with methods := m }⟩) := by
  cases q with
  | type e level =>
      obtain ⟨⟨v, g, c⟩, h, hp⟩ := bind_eq_ok.1 h
      obtain ⟨⟨w, l, m⟩, hr, hq⟩ := bind_eq_ok.1 h
      cases hq
      cases hp
      exact .inl ⟨e, level, l, m, rfl, hr, rfl⟩
  | field e level =>
      obtain ⟨⟨v, g, c⟩, h, hp⟩ := bind_eq_ok.1 h
      unfold Registry.registerField at h
      split at h
      · exact nomatch h
      · obtain ⟨⟨w, l, m⟩, hr, hq⟩ := bind_eq_ok.1 h
        cases hq
        cases hp
        exact .inr (.inl ⟨e, level, l, m, rfl, hr, rfl⟩)
  | method e level =>
      obtain ⟨⟨v, g, c⟩, h, hp⟩ := bind_eq_ok.1 h
      unfold Registry.registerMethod at h
      split at h
      · exact nomatch h
      · obtain ⟨⟨w, l, m⟩, hr, hq⟩ := bind_eq_ok.1 h
        cases hq
        cases hp
        exact .inr (.inr ⟨e, level, l, m, rfl, hr, rfl⟩)

/-- A granted request is entered in the journal of its kind. -/
theorem Accounts.serve (h : s.Accounts gs) (hq : s.serve q = .ok (u, s')) :
    s'.Accounts (gs ++ [(q, u)]) := by
  rcases serve_eq_ok hq with ⟨e, level, l, m, rfl, hr, rfl⟩ | ⟨e, level, l, m, rfl, hr, rfl⟩ |
    ⟨e, level, l, m, rfl, hr, rfl⟩
  · exact ⟨h.indexed, by simpa [Registrar.types] using h.types.grant h.indexed hr,
      by simpa [Registrar.fields] using h.fields, by simpa [Registrar.methods] using h.methods⟩
  · exact ⟨h.indexed, by simpa [Registrar.types] using h.types,
      by simpa [Registrar.fields] using h.fields.grant h.indexed hr,
      by simpa [Registrar.methods] using h.methods⟩
  · exact ⟨h.indexed, by simpa [Registrar.types] using h.types, by simpa [Registrar.fields] using h.fields,
      by simpa [Registrar.methods] using h.methods.grant h.indexed hr⟩

/-- The accounts are kept over any requests. -/
theorem Accounts.afterAll (h : s.Accounts gs) (qs : List Request) :
    (s.afterAll qs).Accounts (gs ++ s.granted qs) := by
  induction qs generalizing s gs with
  | nil => simpa [Registrar.afterAll, granted] using h
  | cons q qs ih =>
      change ((s.after q).afterAll qs).Accounts _
      rw [granted, after]
      cases hq : s.serve q with
      | ok p =>
          obtain ⟨u, s'⟩ := p
          have := ih (h.serve hq)
          rwa [List.append_assoc] at this
      | error f => exact ih h

theorem Accounts.refuses_iff (h : s.Accounts gs) (q : Request) :
    (∃ f, s.serve q = .error f) ↔ s.Refuses q := by
  cases q with
  | type e level =>
      rw [Refuses, ← h.types.blocked_iff h.indexed]
      exact (exists_bind_eq_error fun _ => ⟨_, rfl⟩).trans (exists_bind_eq_error fun _ => ⟨_, rfl⟩)
  | field e level =>
      refine (exists_bind_eq_error fun _ => ⟨_, rfl⟩).trans ?_
      rw [Refuses, ← h.fields.blocked_iff h.indexed, Registry.registerField]
      split
      · next hl => exact ⟨fun _ => .inl hl, fun _ => ⟨_, rfl⟩⟩
      · next hl =>
          rw [or_iff_right hl]
          exact exists_bind_eq_error fun _ => ⟨_, rfl⟩
  | method e level =>
      refine (exists_bind_eq_error fun _ => ⟨_, rfl⟩).trans ?_
      rw [Refuses, ← h.methods.blocked_iff h.indexed, Registry.registerMethod]
      split
      · next hl => exact ⟨fun _ => .inl hl, fun _ => ⟨_, rfl⟩⟩
      · next hl =>
          rw [or_iff_right hl]
          exact exists_bind_eq_error fun _ => ⟨_, rfl⟩

/-- One more request raises levels only. -/
theorem Accounts.rises (h : s.Accounts gs) (q : Request) : s.Rises (s.after q) := by
  have same : s.Rises s :=
    ⟨fun _ r hr => ⟨r, hr, rfl, Level.le_refl _⟩, fun _ r hr => ⟨r, hr, rfl, Level.le_refl _⟩,
      fun _ r hr => ⟨r, hr, rfl, Level.le_refl _⟩⟩
  rw [after]
  cases hq : s.serve q with
  | error f => exact same
  | ok p =>
      obtain ⟨u, s'⟩ := p
      rcases serve_eq_ok hq with ⟨e, level, l, m, rfl, hr, rfl⟩ | ⟨e, level, l, m, rfl, hr, rfl⟩ |
        ⟨e, level, l, m, rfl, hr, rfl⟩
      · exact ⟨h.types.rises hr, same.fields, same.methods⟩
      · exact ⟨same.types, h.fields.rises hr, same.methods⟩
      · exact ⟨same.types, same.fields, h.methods.rises hr⟩

/-- After any requests, beginning with an empty catalog with indices, registry and catalog are what the journals say; and of the next request it holds that it is refused exactly for the reasons there are, that it changes nothing then, and that otherwise it raises levels only. -/
theorem accounts_kept {o : Options} (indexed : o.namedTokens = false) (qs : List Request) :
    ((start o).afterAll qs).Accounts ((start o).granted qs) ∧
      ∀ q, ((∃ f, ((start o).afterAll qs).serve q = .error f) ↔ ((start o).afterAll qs).Refuses q) ∧
        (((start o).afterAll qs).Refuses q →
          ((start o).afterAll qs).after q = (start o).afterAll qs) ∧
        ((start o).afterAll qs).Rises (((start o).afterAll qs).after q) := by
  have accounts := (accounts_start indexed).afterAll qs
  rw [List.nil_append] at accounts
  refine ⟨accounts, fun q => ⟨accounts.refuses_iff q, fun refused => ?_, accounts.rises q⟩⟩
  obtain ⟨f, hf⟩ := (accounts.refuses_iff q).2 refused
  rw [after, hf]

/-- A type is met as a reference, then as a definition whose list of enclosing names is empty and not absent, and then another one is to be defined without data. -/
def upgrade : List Request :=
  [.type (.reference ⟨"T", "N", none, none⟩) .reference,
    .type (.definition ⟨"T", "N", none, some []⟩ {}) .definition,
    .type (.reference ⟨"U", "N", none, none⟩) .definition]

theorem accounts_kept_upgrade : (⟨14⟩ : Options).namedTokens = false ∧
    (types ((start ⟨14⟩).granted upgrade)).map Receipt.told =
      [⟨.index 0, .reference⟩, ⟨.index 0, .reference⟩] ∧
    (types ((start ⟨14⟩).granted upgrade)).Kept ((start ⟨14⟩).afterAll upgrade).registry.types
      ((start ⟨14⟩).afterAll upgrade).catalog.types ∧
    ((start ⟨14⟩).afterAll upgrade).after (.type (.reference ⟨"U", "N", none, none⟩) .definition) =
      (start ⟨14⟩).afterAll upgrade := by
  obtain ⟨accounts, next⟩ := accounts_kept (o := ⟨14⟩) (by decide) upgrade
  exact ⟨by decide, by decide, accounts.types, (next _).2.1 (.inl ⟨by decide, rfl⟩)⟩

end Registrar

end CilCatalog
