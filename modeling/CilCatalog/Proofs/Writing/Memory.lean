import CilCatalog.Proofs.Ledger
import CilCatalog.Writing.Basic

/-!
# What a writer remembers

The rows of entities by their identities: what has been remembered first is found, and changing a level changes no row.
-/

namespace CilCatalog

namespace Memory

variable {ι : Type} [Identity ι] [NormalForm ι] {m : Memory ι} {id id' : ι} {w : Written}

/-- Every identity is in normal form. -/
def IsNormal (m : Memory ι) : Prop := ∀ e ∈ m, Normal e.1

omit [NormalForm ι] in
theorem find?_cons (e : ι × Written) :
    find? (e :: m) id = if Identity.same e.1 id then some e.2 else find? m id := by
  rw [find?, List.find?_cons]
  cases Identity.same e.1 id <;> rfl

omit [NormalForm ι] in
theorem mem_of_find? (h : m.find? id = some w) : ∃ e ∈ m, e.2 = w := by
  obtain ⟨e, he, hw⟩ := Option.map_eq_some_iff.1 h
  exact ⟨e, List.mem_of_find?_eq_some he, hw⟩

theorem isNormal_append (hm : m.IsNormal) (hid : Normal id) : IsNormal (m ++ [(id, w)]) := by
  intro e he
  rcases List.mem_append.1 he with he | he
  · exact hm e he
  · cases List.mem_singleton.1 he
    exact hid

omit [NormalForm ι] in
/-- What has been remembered before comes first. -/
theorem find?_append_of_some {w' : Written} (h : m.find? id' = some w') :
    find? (m ++ [(id, w)]) id' = some w' := by
  induction m with
  | nil => exact nomatch h
  | cons e m ih =>
      rw [find?_cons] at h
      rw [List.cons_append, find?_cons]
      split at h
      · next he => rw [if_pos he, h]
      · next he => rw [if_neg he, ih h]

theorem find?_append_self (h : m.find? id = none) : find? (m ++ [(id, w)]) id = some w := by
  induction m with
  | nil => rw [List.nil_append, find?_cons, if_pos (same_self id)]
  | cons e m ih =>
      rw [find?_cons] at h
      rw [List.cons_append, find?_cons]
      split at h
      · exact nomatch h
      · next he => rw [if_neg he, ih h]

omit [NormalForm ι] in
theorem find?_append_of_not_same (h : Identity.same id id' = false) :
    find? (m ++ [(id, w)]) id' = m.find? id' := by
  induction m with
  | nil =>
      rw [List.nil_append, find?_cons, h]
      rfl
  | cons e m ih => rw [List.cons_append, find?_cons, find?_cons, ih]

theorem find?_append_of_ne (hid : Normal id) (hid' : Normal id') (hne : id ≠ id') :
    find? (m ++ [(id, w)]) id' = m.find? id' :=
  find?_append_of_not_same (eq_false_of_ne_true fun h => hne (eq_of_same hid hid' h))

/-- What is remembered with one more identity is that, or has been remembered before. -/
theorem of_find?_append {w' : Written} (hid : Normal id) (hid' : Normal id')
    (hnew : m.find? id = none) (h : find? (m ++ [(id, w)]) id' = some w') :
    (id = id' ∧ w' = w) ∨ m.find? id' = some w' := by
  by_cases hne : id = id'
  · subst hne
    rw [find?_append_self hnew] at h
    exact .inl ⟨rfl, (Option.some.inj h).symm⟩
  · rw [find?_append_of_ne hid hid' hne] at h
    exact .inr h

omit [NormalForm ι] in
/-- Changing the level of an identity keeps its row. -/
theorem find?_atLevel_self (level : Level) :
    (m.atLevel id level).find? id = (m.find? id).map fun w => { w with level } := by
  induction m with
  | nil => rfl
  | cons e m ih =>
      change find? ((if Identity.same e.1 id then (e.1, { e.2 with level }) else e) ::
        atLevel m id level) id = _
      by_cases hs : Identity.same e.1 id = true
      · rw [if_pos hs, find?_cons, find?_cons, if_pos hs, if_pos hs]
        rfl
      · rw [if_neg hs, find?_cons, find?_cons, if_neg hs, if_neg hs, ih]

/-- Changing the level of an identity changes nothing else. -/
theorem find?_atLevel_of_ne (hm : m.IsNormal) (hid : Normal id) (hid' : Normal id')
    (hne : id ≠ id') (level : Level) : (m.atLevel id level).find? id' = m.find? id' := by
  induction m with
  | nil => rfl
  | cons e m ih =>
      have he := hm e List.mem_cons_self
      have ih := ih fun e' he' => hm e' (List.mem_cons_of_mem e he')
      change find? ((if Identity.same e.1 id then (e.1, { e.2 with level }) else e) ::
        atLevel m id level) id' = _
      by_cases hs : Identity.same e.1 id = true
      · have hs' : ¬ Identity.same e.1 id' = true := fun hs' =>
          hne ((eq_of_same he hid hs).symm.trans (eq_of_same he hid' hs'))
        rw [if_pos hs, find?_cons, find?_cons, if_neg hs', if_neg hs', ih]
      · rw [if_neg hs, find?_cons, find?_cons, ih]

/-- What is remembered with one level changed has been remembered before. -/
theorem of_find?_atLevel {w' : Written} {level : Level} (hm : m.IsNormal) (hid : Normal id)
    (hid' : Normal id') (hw : m.find? id = some w) (h : (m.atLevel id level).find? id' = some w') :
    (id = id' ∧ w' = { w with level }) ∨ (id ≠ id' ∧ m.find? id' = some w') := by
  by_cases hne : id = id'
  · subst hne
    rw [find?_atLevel_self, hw] at h
    exact .inl ⟨rfl, (Option.some.inj h).symm⟩
  · rw [find?_atLevel_of_ne hm hid hid' hne] at h
    exact .inr ⟨hne, h⟩

/-- What has been remembered is remembered still, with its row, when a level is raised. -/
theorem find?_atLevel {w' : Written} {level : Level} (hm : m.IsNormal) (hid : Normal id)
    (hid' : Normal id') (hw : m.find? id = some w) (hl : w.level ≤ level)
    (h : m.find? id' = some w') : ∃ w'', (m.atLevel id level).find? id' = some w'' ∧
      w''.row = w'.row ∧ w'.level ≤ w''.level := by
  by_cases hne : id = id'
  · subst hne
    cases hw.symm.trans h
    exact ⟨{ w with level }, by rw [find?_atLevel_self, h]; rfl, rfl, hl⟩
  · rw [find?_atLevel_of_ne hm hid hid' hne]
    exact ⟨w', h, rfl, Int32.le_refl _⟩

/-! ### Rows -/

/-- The row that is remembered of an identity. -/
def row? (m : Memory ι) (id : ι) : Option Live.Row := (m.find? id).map Written.row

omit [NormalForm ι] in
theorem mem_of_row? {r : Live.Row} (h : m.row? id = some r) : ∃ e ∈ m, e.2.row = r := by
  obtain ⟨z, hz, rfl⟩ := Option.map_eq_some_iff.1 h
  obtain ⟨e, he, rfl⟩ := mem_of_find? hz
  exact ⟨e, he, rfl⟩

omit [NormalForm ι] in
theorem row?_append {r : Live.Row} (h : m.row? id' = some r) : row? (m ++ [(id, w)]) id' = some r := by
  obtain ⟨z, hz, rfl⟩ := Option.map_eq_some_iff.1 h
  exact Option.map_eq_some_iff.2 ⟨z, find?_append_of_some hz, rfl⟩

theorem row?_append_self (h : m.find? id = none) : row? (m ++ [(id, w)]) id = some w.row := by
  rw [row?, find?_append_self h]
  rfl

omit [NormalForm ι] in
/-- Changing a level changes no row. -/
theorem row?_atLevel (level : Level) : (m.atLevel id level).row? id' = m.row? id' := by
  have key : ((fun e : ι × Written => Identity.same e.1 id') ∘
      fun e => if Identity.same e.1 id then (e.1, { e.2 with level }) else e) =
        fun e => Identity.same e.1 id' := by
    funext e
    dsimp only [Function.comp]
    split <;> rfl
  rw [row?, row?, find?, find?, atLevel, List.find?_map, key, Option.map_map, Option.map_map,
    Option.map_map]
  congr 1
  funext e
  dsimp only [Function.comp]
  split <;> rfl

omit [NormalForm ι] in
theorem exists_atLevel_iff {r : Live.Row} {level : Level} :
    (∃ e ∈ m.atLevel id level, e.2.row = r) ↔ ∃ e ∈ m, e.2.row = r := by
  have row : ∀ e : ι × Written,
      (if Identity.same e.1 id then (e.1, { e.2 with level }) else e).2.row = e.2.row := by
    intro e
    split <;> rfl
  simp only [atLevel, List.mem_map, exists_exists_and_eq_and, row]

omit [NormalForm ι] in
theorem forall_atLevel {p : Live.Row → Prop} {level : Level} (h : ∀ e ∈ m, p e.2.row) :
    ∀ e ∈ m.atLevel id level, p e.2.row := by
  intro e he
  obtain ⟨e', he', hr⟩ := exists_atLevel_iff.1 ⟨e, he, rfl⟩
  exact hr ▸ h e' he'

theorem atLevel_isNormal (hm : m.IsNormal) (level : Level) : (m.atLevel id level).IsNormal := by
  intro e he
  obtain ⟨e', he', rfl⟩ := List.mem_map.1 he
  split
  · exact hm e' he'
  · exact hm e' he'

end Memory

end CilCatalog
