import CilCatalog.Proofs.Copying.Frame

/-!
# New rows

A row that is a value is made with a number of its own, and put into a table of the module at most.  No definition changes by that.
-/

namespace CilCatalog

open Live

namespace Copy

variable {C : Copy} {σ σ' : Store} {w : WriteState} {p : Row}

variable (C) in
/-- There are more rows, and the same definitions. -/
structure Furnishes (σ σ' : Store) : Prop where
  typeDefs : σ'.typeDefs = σ.typeDefs
  fieldDefs : σ'.fieldDefs = σ.fieldDefs
  methodDefs : σ'.methodDefs = σ.methodDefs
  images : σ'.images.length = σ.images.length
  tops : (σ'.image C.image).types = (σ.image C.image).types
  assemblyRefs : (σ.image C.image).assemblyRefs ⊆ (σ'.image C.image).assemblyRefs
  typeRefs : (σ.image C.image).typeRefs ⊆ (σ'.image C.image).typeRefs
  nextRow : σ.nextRow ≤ σ'.nextRow
  tables : C.Tables σ'

namespace Furnishes

variable (h : C.Furnishes σ σ')

include h

theorem typeDef (t : TypeId) : σ'.typeDef t = σ.typeDef t := by
  rw [Store.typeDef, Store.typeDef, h.typeDefs]

theorem fieldDef (f : FieldId) : σ'.fieldDef f = σ.fieldDef f := by
  rw [Store.fieldDef, Store.fieldDef, h.fieldDefs]

theorem methodDef (f : MethodId) : σ'.methodDef f = σ.methodDef f := by
  rw [Store.methodDef, Store.methodDef, h.methodDefs]

theorem store : σ.Extends σ' where
  typesLe := Nat.le_of_eq (by rw [h.typeDefs])
  fieldsLe := Nat.le_of_eq (by rw [h.fieldDefs])
  methodsLe := Nat.le_of_eq (by rw [h.methodDefs])
  types t _ := by rw [h.typeDef]
  fields f _ := by rw [h.fieldDef]
  methods f _ := by rw [h.methodDef]

theorem typeIn {b : Nat} {t : TypeId} : σ'.TypeIn b t ↔ σ.TypeIn b t := by
  rw [Store.TypeIn, Store.TypeIn, h.typeDefs]

theorem grown : C.Grown σ σ' where
  store := h.store
  images := h.images
  layers ht hnew := absurd (h.typeIn.1 ht) hnew
  tops := ⟨[], by rw [h.tops, List.append_nil], nofun⟩
  nested ht hn := .inl ⟨h.typeIn.1 ht, h.typeDef _ ▸ hn⟩
  fields ht hf := .inl ⟨h.typeIn.1 ht, h.typeDef _ ▸ hf⟩
  methods ht hf := .inl ⟨h.typeIn.1 ht, h.typeDef _ ▸ hf⟩
  assemblyRefs := h.assemblyRefs
  typeRefs := h.typeRefs
  nextRow := h.nextRow
  tables := h.tables

end Furnishes

/-- A new row leaves everything as it should be. -/
theorem Faithful.furnish (hw : C.Faithful p w) (h : C.Furnishes w.store σ') :
    C.Faithful p { w with store := σ' } ∧ w.TypeStep { w with store := σ' } := by
  have step : w.Refers { w with store := σ' } := h.grown.refers hw.image
    (fun t _ => .of_eq (h.typeDef t)) (fun f _ => h.fieldDef f) fun f _ => h.methodDef f
  refine ⟨hw.grow h.grown ⟨?_, ?_, ?_⟩ (hw.copied.refers hw.remembered step),
    step, h.fieldDefs, h.methodDefs, rfl, rfl⟩
  · intro t n ht hn
    rw [h.typeDef] at hn
    exact hw.listed.types (h.typeIn.1 ht) hn
  · intro t f ht hf
    rw [h.typeDef] at hf
    exact hw.listed.fields (h.typeIn.1 ht) hf
  · intro t f ht hf
    rw [h.typeDef] at hf
    exact hw.listed.methods (h.typeIn.1 ht) hf

/-! ### Rows in no table of references -/

/-- The tables do not mind a number being used up. -/
theorem Tables.bump (h : C.Tables σ) (hi : (σ'.image C.image).assemblyRefs = (σ.image C.image).assemblyRefs)
    (ht : (σ'.image C.image).typeRefs = (σ.image C.image).typeRefs)
    (hn : σ.nextRow ≤ σ'.nextRow) : C.Tables σ' where
  assemblies r hr := by
    obtain ⟨n, a, rfl, ha, hlt⟩ := h.assemblies r (hi ▸ hr)
    exact ⟨n, a, rfl, ha, Nat.lt_of_lt_of_le hlt hn⟩
  types r hr := by
    obtain ⟨n, ns, name, scope, rfl, hlt⟩ := h.types r (ht ▸ hr)
    exact ⟨n, ns, name, scope, rfl, Nat.lt_of_lt_of_le hlt hn⟩
  closed := by
    rw [refs, hi, ht]
    exact h.closed
  apart := by
    rw [refs, hi, ht]
    exact h.apart

theorem furnishes_addRow (hg : C.Ground σ) (make : Nat → Row) : C.Furnishes σ (σ.addRow make).2 :=
  ⟨rfl, rfl, rfl, rfl, rfl, List.Subset.refl _, List.Subset.refl _, Nat.le_succ _,
    hg.tables.bump rfl rfl (Nat.le_succ _)⟩

/-- A new row in a table that is none of references to types. -/
theorem furnishes_modifyImage (hg : C.Ground σ) (make : Nat → Row) {f : Image → Image}
    (ht : ∀ m, (f m).types = m.types) (ha : ∀ m, (f m).assemblyRefs = m.assemblyRefs)
    (hr : ∀ m, (f m).typeRefs = m.typeRefs) :
    C.Furnishes σ ((σ.addRow make).2.modifyImage C.image f) := by
  have himage : ((σ.addRow make).2.modifyImage C.image f).image C.image = f (σ.image C.image) :=
    Store.image_modifyImage hg.image
  refine ⟨rfl, rfl, rfl, Store.length_modifyImage _ _, ?_, ?_, ?_, Nat.le_succ _,
    hg.tables.bump ?_ ?_ (Nat.le_succ _)⟩
  all_goals rw [himage]
  · exact ht _
  · rw [ha]; exact List.Subset.refl _
  · rw [hr]; exact List.Subset.refl _
  · exact ha _
  · exact hr _

/-! ### References -/

theorem Tables.number_lt (h : C.Tables σ) {r : Row} (hr : r ∈ C.refs σ) :
    ∃ k n, r.key? = some (k, n) ∧ n < σ.nextRow := by
  rcases List.mem_append.1 hr with hr | hr
  · obtain ⟨n, a, rfl, -, hn⟩ := h.assemblies r hr
    exact ⟨_, n, rfl, hn⟩
  · obtain ⟨n, ns, name, scope, rfl, hn⟩ := h.types r hr
    exact ⟨_, n, rfl, hn⟩

/-- A row with the next number is told apart from all in the tables. -/
theorem Tables.fresh (h : C.Tables σ) {r r' : Row} {k : RowKind} (hr : r ∈ C.refs σ)
    (hk : r'.key? = some (k, σ.nextRow)) : r.same r' = false := by
  obtain ⟨k', n, hkey, hn⟩ := h.number_lt hr
  rw [Row.same, hkey, hk]
  have : n ≠ σ.nextRow := Nat.ne_of_lt hn
  simp [this]

/-- One more reference, whose rows are in the tables, and which has the next number. -/
theorem Tables.add (h : C.Tables σ) {r : Row} {k : RowKind} (hk : r.key? = some (k, σ.nextRow))
    (hrows : ∀ x ∈ r.rows, x = r ∨ x ∈ C.refs σ) (hmem : ∀ x, x ∈ C.refs σ' ↔ x ∈ C.refs σ ∨ x = r)
    (ha : ∀ x ∈ (σ'.image C.image).assemblyRefs,
      ∃ n a, x = .assemblyRef n a ∧ a.IsPlain ∧ n < σ'.nextRow)
    (ht : ∀ x ∈ (σ'.image C.image).typeRefs,
      ∃ n ns name scope, x = .typeRef n ns name scope ∧ n < σ'.nextRow) : C.Tables σ' where
  assemblies := ha
  types := ht
  closed x hx y hy := by
    rcases (hmem x).1 hx with hx | rfl
    · exact (hmem y).2 (.inl (h.closed x hx y hy))
    · exact (hmem y).2 ((hrows y hy).symm)
  apart x hx y hy hxy := by
    rcases (hmem x).1 hx with hx | rfl
    · rcases (hmem y).1 hy with hy | rfl
      · exact h.apart x hx y hy hxy
      · rw [h.fresh hx hk] at hxy
        exact nomatch hxy
    · rcases (hmem y).1 hy with hy | rfl
      · have : y.same x = true := by
          rw [Row.same, beq_iff_eq] at hxy ⊢
          exact hxy.symm
        rw [h.fresh hy hk] at this
        exact nomatch this
      · rfl

theorem image_createAssemblyRef (hg : C.Ground σ) (a : AssemblyName) :
    (σ.createAssemblyRef C.image a).2.image C.image =
      { σ.image C.image with
        assemblyRefs := (σ.image C.image).assemblyRefs ++ [.assemblyRef σ.nextRow a] } :=
  Store.image_modifyImage hg.image

theorem image_addTypeRef (hg : C.Ground σ) (ns name : Bytes) (scope : Row) :
    (σ.addTypeRef C.image ns name scope).2.image C.image =
      { σ.image C.image with
        typeRefs := (σ.image C.image).typeRefs ++ [.typeRef σ.nextRow ns name scope] } :=
  Store.image_modifyImage hg.image

theorem furnishes_createAssemblyRef (hg : C.Ground σ) {a : AssemblyName} (ha : a.IsPlain) :
    C.Furnishes σ (σ.createAssemblyRef C.image a).2 := by
  have himage := image_createAssemblyRef hg a
  have hmem : ∀ x, x ∈ C.refs (σ.createAssemblyRef C.image a).2 ↔
      x ∈ C.refs σ ∨ x = .assemblyRef σ.nextRow a := by
    intro x
    simp only [refs, himage, List.mem_append, List.mem_singleton]
    tauto
  refine ⟨rfl, rfl, rfl, Store.length_modifyImage _ _, ?_, ?_, ?_, Nat.le_succ _,
    hg.tables.add (r := .assemblyRef σ.nextRow a) rfl ?_ hmem ?_ ?_⟩
  · rw [himage]
  · rw [himage]
    exact List.subset_append_left _ _
  · rw [himage]
    exact List.Subset.refl _
  · exact fun x hx => .inl (List.mem_singleton.1 hx)
  · intro x hx
    rw [himage] at hx
    rcases List.mem_append.1 hx with hx | hx
    · obtain ⟨n, b, rfl, hb, hn⟩ := hg.tables.assemblies x hx
      exact ⟨n, b, rfl, hb, Nat.lt_succ_of_lt hn⟩
    · exact ⟨σ.nextRow, a, List.mem_singleton.1 hx, ha, Nat.lt_succ_self _⟩
  · intro x hx
    rw [himage] at hx
    obtain ⟨n, ns, name, scope, rfl, hn⟩ := hg.tables.types x hx
    exact ⟨n, ns, name, scope, rfl, Nat.lt_succ_of_lt hn⟩

theorem furnishes_addTypeRef (hg : C.Ground σ) (ns name : Bytes) {scope : Row}
    (hs : scope ∈ C.refs σ) : C.Furnishes σ (σ.addTypeRef C.image ns name scope).2 := by
  have himage := image_addTypeRef hg ns name scope
  have hmem : ∀ x, x ∈ C.refs (σ.addTypeRef C.image ns name scope).2 ↔
      x ∈ C.refs σ ∨ x = .typeRef σ.nextRow ns name scope := by
    intro x
    simp only [refs, himage, List.mem_append, List.mem_singleton]
    tauto
  refine ⟨rfl, rfl, rfl, Store.length_modifyImage _ _, ?_, ?_, ?_, Nat.le_succ _,
    hg.tables.add (r := .typeRef σ.nextRow ns name scope) rfl ?_ hmem ?_ ?_⟩
  · rw [himage]
  · rw [himage]
    exact List.Subset.refl _
  · rw [himage]
    exact List.subset_append_left _ _
  · intro x hx
    rcases List.mem_cons.1 hx with rfl | hx
    · exact .inl rfl
    · exact .inr (hg.tables.closed scope hs x hx)
  · intro x hx
    rw [himage] at hx
    obtain ⟨n, b, rfl, hb, hn⟩ := hg.tables.assemblies x hx
    exact ⟨n, b, rfl, hb, Nat.lt_succ_of_lt hn⟩
  · intro x hx
    rw [himage] at hx
    rcases List.mem_append.1 hx with hx | hx
    · obtain ⟨n, ns, name, scope, rfl, hn⟩ := hg.tables.types x hx
      exact ⟨n, ns, name, scope, rfl, Nat.lt_succ_of_lt hn⟩
    · exact ⟨σ.nextRow, ns, name, scope, List.mem_singleton.1 hx, Nat.lt_succ_self _⟩

end Copy

end CilCatalog
