import CilCatalog.Proofs.Copying.House
import CilCatalog.Proofs.Live.AssemblyName
import CilCatalog.Proofs.Writing.Contracts

/-!
# Writing types by name

The row that a writer finds or makes for the identity of a type stands for that type (`typeRow_stands`).  Assemblies come first, then references to their types, and the types of the copy from the outside in.
-/

namespace CilCatalog

open Live

namespace Copy

variable {C : Copy} {p r : Row} {w w' : WriteState}

/-! ### At work on a copy -/

section Work

variable {α β : Type} {a : α}

/-- What is made, is made in the module of the copy. -/
theorem Faithful.gives_making {make : ImageId → Store → β × Store} {k : β → Writing α}
    (hw : C.Faithful p w) :
    Gives (Writing.making make >>= k) w a w' ↔
      Gives (k (make C.image w.store).1) { w with store := (make C.image w.store).2 } a w' := by
  rw [gives_bind_making, hw.image]

/-- There is nobody to be asked. -/
theorem Faithful.gives_askForAssembly {label : Bytes} {k : Row → Writing α} (hw : C.Faithful p w) :
    Gives (Writing.askForAssembly label >>= k) w a w' ↔ Gives (k .null) w a w' := by
  unfold Writing.askForAssembly
  rw [bind_assoc, gives_bind_writer, hw.hooks]
  dsimp only
  rw [pure_bind]

theorem Faithful.gives_askForType {assembly : Row} {id : TypeIdentity} {k : Row → Writing α}
    (hw : C.Faithful p w) :
    Gives (Writing.askForType assembly id >>= k) w a w' ↔ Gives (k .null) w a w' := by
  unfold Writing.askForType
  rw [bind_assoc, gives_bind_writer, hw.hooks]
  dsimp only
  rw [pure_bind]

end Work

/-! ### Remembering -/

/-- A reference to an assembly may be remembered under the name by which it is recorded. -/
theorem Faithful.rememberAssembly {n : Nat} {a : AssemblyName} {label : Bytes}
    (hw : C.Faithful p w) (hm : .assemblyRef n a ∈ (w.store.image C.image).assemblyRefs)
    (hl : assemblyLabel C.source.options a = label) :
    let w' : WriteState := { w with writer := { w.writer with
      assemblies := w.writer.assemblies ++ [(label, .assemblyRef n a)] } }
    C.Faithful p w' ∧ w.TypeStep w' := by
  intro w'
  have step : w.TypeStep w' :=
    ⟨⟨.refl _, fun _ _ => .of_eq rfl, fun _ _ => rfl, fun _ _ => rfl, fun _ h => h, fun h => h,
      fun h => h, fun _ h _ => h, fun h _ => h, fun h => .inl h, rfl, List.Subset.refl _,
      List.Subset.refl _, Nat.le_refl _⟩, rfl, rfl, rfl, rfl⟩
  refine ⟨⟨hw.image, hw.hooks, hw.ground, ⟨hw.listed.types, hw.listed.fields, hw.listed.methods⟩,
    ⟨hw.remembered.normal, hw.remembered.types, ?_, hw.remembered.fields, hw.remembered.methods⟩,
    hw.copied.refers hw.remembered step.toRefers⟩, step⟩
  intro label' r hr
  change List.lookup label' (w.writer.assemblies ++ _) = some r at hr
  rw [List.lookup_append] at hr
  cases hold : w.writer.assemblies.lookup label' with
  | some r' =>
      rw [hold] at hr
      cases hr
      exact hw.remembered.assemblies hold
  | none =>
      rw [hold, Option.none_or, List.lookup_cons] at hr
      split at hr
      · next heq =>
          cases hr
          exact ⟨n, a, rfl, hm, hl.trans (beq_iff_eq.1 heq).symm⟩
      · exact nomatch hr

/-- A row that stands for a type may be remembered. -/
theorem Faithful.rememberType {id : TypeIdentity} (hw : C.Faithful p w) (hp : p = .null ∨ p = r)
    (hs : C.TypeStands w.store id r) (hnew : w.writer.types.find? id = none) :
    let w' : WriteState := { w with writer := { w.writer with
      types := w.writer.types ++ [(id, ⟨r, .reference⟩)] } }
    C.Faithful .null w' ∧ w.TypeStep w' := by
  intro w'
  have hid := hs.known.normal
  have hfind : w'.writer.types.find? id = some ⟨r, .reference⟩ := Memory.find?_append_self hnew
  have cases : ∀ {id' e}, Normal id' → w'.writer.types.find? id' = some e →
      (id = id' ∧ e = ⟨r, .reference⟩) ∨ w.writer.types.find? id' = some e :=
    fun hid' h => Memory.of_find?_append hid hid' hnew h
  have kept : ∀ {id' e}, w.writer.types.find? id' = some e → w'.writer.types.find? id' = some e :=
    fun h => Memory.find?_append_of_some h
  have step : w.TypeStep w' := by
    refine ⟨⟨.refl _, fun _ _ => .of_eq rfl, fun _ _ => rfl, fun _ _ => rfl, fun _ h => kept h,
      fun h => h, fun h => h, fun {id' e} hid' he hl => ?_, fun h _ => h, fun h => .inl h, rfl,
      List.Subset.refl _, List.Subset.refl _, Nat.le_refl _⟩, rfl, rfl, rfl, rfl⟩
    rcases cases hid' he with ⟨-, rfl⟩ | he
    · exact absurd hl (show ¬ Level.definition ≤ .reference by decide)
    · exact he
  have notMember : ∀ {q : Row}, q.isType = false → p = q → q = .null := by
    rintro q hq rfl
    rcases hp with hp | rfl
    · exact hp
    · rw [hs.stands.names.isType] at hq
      exact nomatch hq
  refine ⟨⟨hw.image, hw.hooks, hw.ground, ⟨?_, ?_, ?_⟩, ⟨?_, ?_, hw.remembered.assemblies,
    hw.remembered.fields, hw.remembered.methods⟩, hw.copied.refers hw.remembered step.toRefers⟩,
    step⟩
  · intro t n ht hn
    rcases hw.listed.types ht hn with hpn | ⟨id', e, hid', he, hrow⟩
    · rcases hp with hp | rfl
      · rw [hp] at hpn
        exact nomatch hpn
      · exact .inr ⟨id, _, hid, hfind, hpn⟩
    · exact .inr ⟨id', e, hid', kept he, hrow⟩
  · intro t f ht hf
    rcases hw.listed.fields ht hf with hpf | h
    · exact nomatch notMember rfl hpf
    · exact .inr h
  · intro t f ht hf
    rcases hw.listed.methods ht hf with hpf | h
    · exact nomatch notMember rfl hpf
    · exact .inr h
  · exact Memory.isNormal_append hw.remembered.normal hid
  · intro id' e hid' he
    rcases cases hid' he with ⟨rfl, rfl⟩ | he
    · exact hs
    · exact hw.remembered.types hid' he

/-! ### Assemblies -/

/-- Reference assemblies that a label finds are recorded under it. -/
theorem label_of_isAssembly {o : Options} {a b : AssemblyName} {n : Nat} (ha : a.IsPlain)
    (hb : b.IsPlain) (h : Writing.isAssembly (assemblyLabel o a) (.assemblyRef n b) = true) :
    assemblyLabel o b = assemblyLabel o a := by
  rw [Writing.isAssembly, Bool.or_eq_true, beq_iff_eq, beq_iff_eq] at h
  unfold assemblyLabel at h ⊢
  split at h
  · next ho =>
      rw [if_pos ho, if_pos ho]
      exact h.resolve_right (AssemblyName.text_ne_name hb).symm
  · next ho =>
      rw [if_neg ho, if_neg ho]
      exact h.resolve_left (AssemblyName.text_ne_name ha)

/-- What the label of an assembly spells is recorded under the label. -/
theorem label_ofText (o : Options) {a : AssemblyName} (ha : a.IsPlain) :
    (AssemblyName.ofText (assemblyLabel o a)).IsPlain ∧
      assemblyLabel o (.ofText (assemblyLabel o a)) = assemblyLabel o a := by
  unfold assemblyLabel
  split
  · rw [AssemblyName.ofText_text ha]
    exact ⟨ha, rfl⟩
  · rw [AssemblyName.ofText_name ha]
    exact ⟨AssemblyName.isPlain_ofSimpleName ha.name, rfl⟩

theorem assemblyRow_stands {a : AssemblyName} (hw : C.Faithful p w) (ha : a.IsPlain)
    (h : Gives (Writing.assemblyRow (assemblyLabel C.source.options a)) w r w') :
    C.Faithful p w' ∧ w.TypeStep w' ∧ w'.writer.types = w.writer.types ∧
      ∃ n b, r = .assemblyRef n b ∧ r ∈ (w'.store.image C.image).assemblyRefs ∧
        assemblyLabel C.source.options b = assemblyLabel C.source.options a := by
  unfold Writing.assemblyRow at h
  obtain ⟨-, h⟩ := gives_guard.1 h
  rw [gives_bind_writer] at h
  split at h
  · next r' hr =>
      obtain ⟨rfl, rfl⟩ := gives_pure.1 h
      obtain ⟨n, b, rfl, hm, hl⟩ := hw.remembered.assemblies hr
      exact ⟨hw, .refl _, rfl, n, b, rfl, hm, hl⟩
  · next hnone =>
      rw [hw.gives_askForAssembly, gives_bind_store, gives_bind_writer, hw.image] at h
      dsimp only at h
      rw [if_pos (show Row.null.isNull = true from rfl)] at h
      split at h
      · next r' hr =>
          -- one of the references is called so
          rw [pure_bind, gives_bind_modifyWriter] at h
          obtain ⟨rfl, rfl⟩ := gives_pure.1 h
          have hm := List.mem_of_find?_eq_some hr
          obtain ⟨n, b, rfl, hb, -⟩ := hw.ground.tables.assemblies r hm
          have hl := label_of_isAssembly ha hb (List.find?_some hr)
          obtain ⟨hw', hst⟩ := hw.rememberAssembly hm hl
          exact ⟨hw', hst, rfl, n, b, rfl, hm, hl⟩
      · -- a new reference, made from the label
          rw [hw.gives_making, gives_bind_modifyWriter] at h
          obtain ⟨rfl, rfl⟩ := gives_pure.1 h
          obtain ⟨hplain, hl⟩ := label_ofText C.source.options ha
          obtain ⟨hw₁, hst₁⟩ := hw.furnish (furnishes_createAssemblyRef hw.ground hplain)
          have hm : Row.assemblyRef w.store.nextRow
              (.ofText (assemblyLabel C.source.options a)) ∈
              ((w.store.createAssemblyRef C.image
                (.ofText (assemblyLabel C.source.options a))).2.image C.image).assemblyRefs := by
            rw [image_createAssemblyRef hw.ground]
            exact List.mem_append_right _ List.mem_cons_self
          obtain ⟨hw₂, hst₂⟩ := hw₁.rememberAssembly hm hl
          exact ⟨hw₂, hst₁.trans hst₂, rfl, _, _, rfl, hm, hl⟩

/-! ### References to types -/

/-- A reference found by scope and name has that very scope. -/
theorem eq_of_isTypeReference {σ : Store} {scope : Row} {ns name : Bytes} (hg : C.Ground σ)
    (hs : scope ∈ C.refs σ) (hr : r ∈ (σ.image C.image).typeRefs)
    (h : Writing.isTypeReference scope ns name r = true) : ∃ n, r = .typeRef n ns name scope := by
  obtain ⟨n, ns', name', scope', rfl, -⟩ := hg.tables.types r hr
  rw [Writing.isTypeReference, Bool.and_eq_true, Bool.and_eq_true, beq_iff_eq, beq_iff_eq] at h
  obtain ⟨⟨hsame, rfl⟩, rfl⟩ := h
  have hnull : scope'.isNull = false := by
    obtain ⟨k, i, hk, -⟩ := hg.tables.number_lt hs
    cases scope' with
    | null =>
        rw [Row.same, hk] at hsame
        exact nomatch hsame
    | _ => rfl
  have hs' : scope' ∈ C.refs σ := hg.tables.closed _ (List.mem_append_right _ hr) scope'
    (List.mem_cons_of_mem _ (Row.mem_rows hnull))
  exact ⟨n, by rw [hg.tables.apart scope' hs' scope hs hsame]⟩

theorem referenceIn_stands {scope : Row} {ns name : Bytes} (hw : C.Faithful p w)
    (hs : scope ∈ C.refs w.store) (h : Gives (Writing.referenceIn scope ns name) w r w') :
    C.Faithful p w' ∧ w.TypeStep w' ∧ w'.writer = w.writer ∧
      ∃ n, r = .typeRef n ns name scope ∧ r ∈ (w'.store.image C.image).typeRefs := by
  unfold Writing.referenceIn at h
  rw [gives_bind_store, gives_bind_writer, hw.image] at h
  split at h
  · next r' hr =>
      obtain ⟨rfl, rfl⟩ := gives_pure.1 h
      have hm := List.mem_of_find?_eq_some hr
      obtain ⟨n, rfl⟩ := eq_of_isTypeReference hw.ground hs hm (List.find?_some hr)
      exact ⟨hw, .refl _, rfl, n, rfl, hm⟩
  · obtain ⟨rfl, rfl⟩ := gives_making.1 (gives_createTypeRef h)
    rw [hw.image]
    obtain ⟨hw', hst⟩ := hw.furnish (furnishes_addTypeRef hw.ground ns name hs)
    refine ⟨hw', hst, rfl, _, rfl, ?_⟩
    change _ ∈ ((w.store.addTypeRef C.image ns name scope).2.image C.image).typeRefs
    rw [image_addTypeRef hw.ground]
    exact List.mem_append_right _ List.mem_cons_self

/-! ### Types of the copy -/

theorem Faithful.weaken (hw : C.Faithful .null w) : C.Faithful r w :=
  ⟨hw.image, hw.hooks, hw.ground,
    ⟨fun ht hn => .inr ((hw.listed.types ht hn).resolve_left nofun),
      fun ht hf => .inr ((hw.listed.fields ht hf).resolve_left nofun),
      fun ht hf => .inr ((hw.listed.methods ht hf).resolve_left nofun)⟩, hw.remembered, hw.copied⟩

theorem typeStands_typeDef {σ : Store} {id : TypeIdentity} {t : TypeId} (hg : C.Ground σ)
    (hk : C.Known id) (ht : σ.TypeIn C.base t) (hid : Reading.definitionIdentity σ t = id) :
    C.TypeStands σ id (.typeDef t) := by
  subst hid
  refine ⟨hk, stands_typeDef hg.layered ht, ?_, nofun⟩
  rintro _ ⟨⟩
  exact ht

/-- The type of the copy with a name, which is not nested. -/
theorem topDefinition_stands {id : TypeIdentity} (hw : C.Faithful .null w) (hk : C.Known id)
    (hid : id = ⟨id.name, id.ns, none, none⟩)
    (h : Gives (Writing.topDefinition id.ns id.name) w r w') :
    C.Faithful r w' ∧ w.TypeStep w' ∧ w'.writer = w.writer ∧ C.TypeStands w'.store id r := by
  unfold Writing.topDefinition at h
  rw [gives_bind_store, gives_bind_writer, hw.image] at h
  split at h
  · next t ht =>
      obtain ⟨rfl, rfl⟩ := gives_pure.1 h
      obtain ⟨hin, hd⟩ := hw.ground.tops t (List.mem_of_find?_eq_some ht)
      have hnames := List.find?_some ht
      rw [Bool.and_eq_true, beq_iff_eq, beq_iff_eq] at hnames
      refine ⟨hw.weaken, .refl _, rfl, typeStands_typeDef hw.ground hk hin ?_⟩
      rw [definitionIdentity_top hd, hnames.1, hnames.2]
      exact hid.symm
  · rw [hw.gives_making] at h
    obtain ⟨rfl, rfl⟩ := gives_pure.1 h
    have hnew := houses_createType hw.ground id.ns id.name
    obtain ⟨hw', hst⟩ := hw.house hnew
    refine ⟨hw', hst, rfl, typeStands_typeDef hw'.ground hk (hnew.typeIn_new hw.ground) ?_⟩
    exact (identity_createType hw.ground id.ns id.name).trans hid.symm

/-- The type of the copy with a name inside of another. -/
theorem nestedDefinition_stands {id : TypeIdentity} {outer : TypeId} (hw : C.Faithful .null w)
    (hk : C.Known id) (ho : w.store.TypeIn C.base outer)
    (hid : id = ⟨id.name, (Reading.definitionIdentity w.store outer).ns, none,
      some ((w.store.typeDef outer).name ::
        (Reading.definitionIdentity w.store outer).enclosing.getD [])⟩)
    (h : Gives (Writing.nestedDefinition outer id.name) w r w') :
    C.Faithful r w' ∧ w.TypeStep w' ∧ w'.writer = w.writer ∧ C.TypeStands w'.store id r := by
  rw [Writing.nestedDefinition_eq, gives_bind_store] at h
  split at h
  · next t ht =>
      obtain ⟨rfl, rfl⟩ := gives_pure.1 h
      obtain ⟨hin, hd⟩ := hw.ground.nested ho (List.mem_of_find?_eq_some ht)
      have hname := List.find?_some ht
      rw [beq_iff_eq] at hname
      refine ⟨hw.weaken, .refl _, rfl, typeStands_typeDef hw.ground hk hin ?_⟩
      rw [definitionIdentity_nested (hw.ground.layered.rooted hin) hd, hname]
      exact hid.symm
  · rw [hw.gives_making] at h
    obtain ⟨rfl, rfl⟩ := gives_pure.1 h
    have hnew := houses_createNestedType (C := C) [] id.name ho
    obtain ⟨hw', hst⟩ := hw.house hnew
    refine ⟨hw', hst, rfl, typeStands_typeDef hw'.ground hk (hnew.typeIn_new hw.ground) ?_⟩
    exact (identity_createNestedType hw.ground [] id.name ho).trans hid.symm

/-! ### Types by name -/

/-- Types that are newly remembered have fewer than `n` types around them. -/
def AddsWithin (n : Nat) (w w' : WriteState) : Prop :=
  ∀ id e, Normal id → w'.writer.types.find? id = some e →
    w.writer.types.find? id = some e ∨ (id.enclosing.getD []).length < n

theorem addsWithin_of_eq (n : Nat) (h : w'.writer.types = w.writer.types) : AddsWithin n w w' :=
  fun _ _ _ he => .inl (h ▸ he)

theorem AddsWithin.trans {w'' : WriteState} {n : Nat} (h : AddsWithin n w w')
    (h' : AddsWithin n w' w'') : AddsWithin n w w'' :=
  fun id e hid he => (h' id e hid he).elim (h id e hid) .inr

variable (C) in
/-- The row stands for the type, and is remembered. -/
structure TypeHeld (w : WriteState) (id : TypeIdentity) (r : Row) : Prop where
  stands : C.TypeStands w.store id r
  found : ∃ e, w.writer.types.find? id = some e ∧ e.row = r

theorem rememberType_stands {id : TypeIdentity} {n : Nat} {resolve : Writing Row}
    (hw : C.Faithful .null w) (hid : Normal id) (hn : (id.enclosing.getD []).length = n)
    (hresolve : ∀ {r w'}, Gives resolve w r w' →
      C.Faithful r w' ∧ w.TypeStep w' ∧ C.TypeStands w'.store id r ∧ AddsWithin n w w')
    (h : Gives (Writing.rememberType id resolve) w r w') :
    C.Faithful .null w' ∧ w.TypeStep w' ∧ C.TypeHeld w' id r ∧ AddsWithin (n + 1) w w' := by
  unfold Writing.rememberType at h
  rw [gives_bind_writer] at h
  split at h
  · next e he =>
      obtain ⟨rfl, rfl⟩ := gives_pure.1 h
      exact ⟨hw, .refl _, ⟨hw.remembered.types hid he, e, he, rfl⟩, addsWithin_of_eq _ rfl⟩
  · next hnone =>
      obtain ⟨r₁, w₁, hr, h⟩ := gives_bind.1 h
      obtain ⟨hw₁, hst, hs, hadds⟩ := hresolve hr
      rw [gives_bind_modifyWriter] at h
      obtain ⟨rfl, rfl⟩ := gives_pure.1 h
      -- resolving the type has not come by it itself
      have hnew : w₁.writer.types.find? id = none := by
        cases he : w₁.writer.types.find? id with
        | none => rfl
        | some e =>
            rcases hadds id e hid he with he | hlt
            · rw [hnone] at he
              exact nomatch he
            · omega
      obtain ⟨hw₂, hst₂⟩ := hw₁.rememberType (.inr rfl) hs hnew
      refine ⟨hw₂, hst.trans hst₂, ⟨hs, _, Memory.find?_append_self hnew, rfl⟩,
        fun id' e hid' he => ?_⟩
      rcases Memory.of_find?_append hid hid' hnew he with ⟨rfl, -⟩ | he
      · exact .inr (by omega)
      · exact (hadds id' e hid' he).imp_right Nat.lt_succ_of_lt

/-- Names around a type that are in normal form, from the list of them. -/
theorem enclosing_eq {id : TypeIdentity} (hid : Normal id) :
    id.enclosing =
      if (id.enclosing.getD []).isEmpty then none else some (id.enclosing.getD []) := by
  cases he : id.enclosing with
  | none => rfl
  | some ns =>
      cases ns with
      | nil => exact absurd he hid
      | cons n ns => rfl

theorem outerIdentity_normal (id : TypeIdentity) (outer : Bytes) (rest : List Bytes) :
    Normal (Writing.outerIdentity id outer rest) := by
  change (if rest.isEmpty then none else some rest) ≠ some []
  cases rest <;> simp

theorem outerIdentity_enclosing (id : TypeIdentity) (outer : Bytes) (rest : List Bytes) :
    (Writing.outerIdentity id outer rest).enclosing.getD [] = rest := by
  cases rest <;> rfl

/-- The type around a known one is known. -/
theorem Known.outer {id : TypeIdentity} {outer : Bytes} {rest : List Bytes} (h : C.Known id)
    (he : id.enclosing.getD [] = outer :: rest) : C.Known (Writing.outerIdentity id outer rest) := by
  cases h with
  | native t ht hid =>
      cases ho : (C.source.store.typeDef t).declaring with
      | none =>
          rw [hid, definitionIdentity_top ho] at he
          exact nomatch he
      | some o =>
          refine .native o (.around ht ho) ?_
          rw [definitionIdentity_nested (C.regular.rooted_near ht) ho] at hid
          rw [hid, Option.getD_some, List.cons.injEq] at he
          obtain ⟨rfl, rfl⟩ := he
          rw [hid, Writing.outerIdentity, ← enclosing_eq (definitionIdentity_normal _ o)]
          rfl
  | foreign a ha hid hn => exact .foreign a ha hid (outerIdentity_normal id outer rest)

theorem Known.label {id : TypeIdentity} {n : Bytes} (h : C.Known id) (hn : id.assembly = some n) :
    ∃ a : AssemblyName, a.IsPlain ∧ n = assemblyLabel C.source.options a := by
  cases h with
  | native t ht hid =>
      rw [hid] at hn
      exact nomatch hn
  | foreign a ha hid _ =>
      rw [hid] at hn
      cases hn
      exact ⟨a, ha, rfl⟩

/-- The row that a writer finds or makes for a type inside of another. -/
theorem rowInside_stands {id : TypeIdentity} {outer : Bytes} {rest : List Bytes} {d : Row}
    (hw : C.Faithful .null w) (hk : C.Known id) (he : id.enclosing.getD [] = outer :: rest)
    (hd : C.TypeStands w.store (Writing.outerIdentity id outer rest) d)
    (h : Gives (Writing.rowInside d id.name) w r w') :
    C.Faithful r w' ∧ w.TypeStep w' ∧ w'.writer = w.writer ∧ C.TypeStands w'.store id r := by
  have hid : id = ⟨id.name, id.ns, id.assembly, some (outer :: rest)⟩ := by
    have := enclosing_eq hk.normal
    rw [he] at this
    cases id
    cases this
    rfl
  have hnames := hd.stands.names
  generalize houter : Writing.outerIdentity id outer rest = o at hnames
  have hrest : o.enclosing.getD [] = rest := houter ▸ outerIdentity_enclosing id outer rest
  have hname : o.name = outer := houter ▸ rfl
  have hns : o.ns = id.ns := houter ▸ rfl
  have hassembly : o.assembly = id.assembly := houter ▸ rfl
  cases hnames with
  | native t ht =>
      refine nestedDefinition_stands hw hk (hd.inside rfl) ?_ h
      have hrest : (Reading.definitionIdentity w.store t).enclosing.getD [] = rest := hrest
      have hns : (Reading.definitionIdentity w.store t).ns = id.ns := hns
      have hname : (w.store.typeDef t).name = outer := hname
      refine hid.trans ?_
      rw [hrest, hns, hname, ← hassembly]
      rfl
  | foreign n ns name scope k a ha =>
      obtain ⟨hw', hst, hwriter, i, rfl, hm⟩ :=
        referenceIn_stands hw (List.mem_append_right _ (hd.listed rfl)) h
      refine ⟨hw'.weaken, hst, hwriter, hk, ?_, nofun, fun _ => hm⟩
      have hstands : C.Stands w'.store (.typeRef i [] id.name (.typeRef n ns name scope)) _ :=
        stands_typeRef ha
      have heq : Reading.referenceIdentity C.source.options a [] id.name (.typeRef n ns name scope) =
          id := by
        have hrest : (Reading.namesAround (Reading.scopeNames scope)).getD [] = rest := hrest
        rw [namesAround_getD] at hrest
        refine Eq.trans ?_ hid.symm
        rw [← hname, ← hrest, ← hns, ← hassembly]
        rfl
      rw [heq] at hstands
      exact hstands

/-- A row for the assembly of a type, which is none if it is of the module. -/
inductive AssemblyOf (C : Copy) (σ : Store) (id : TypeIdentity) : Row → Prop where
  | own (ha : id.assembly = none) : AssemblyOf C σ id .null
  | other (n : Nat) (a : AssemblyName) (hm : .assemblyRef n a ∈ (σ.image C.image).assemblyRefs)
      (ha : id.assembly = some (assemblyLabel C.source.options a)) :
      AssemblyOf C σ id (.assemblyRef n a)

/-- The type for global fields and methods. -/
theorem globalType_stands {id : TypeIdentity} (hw : C.Faithful p w) (hk : C.Known id)
    (h : Writing.isGlobalType id = true) :
    C.TypeStands w.store id (.typeDef (w.store.globalType C.image)) := by
  obtain ⟨ts, hts⟩ := hw.ground.global
  obtain ⟨hname, hns, hd⟩ := hw.ground.globalName
  have hglobal : w.store.globalType C.image = ⟨C.base⟩ := by
    rw [Store.globalType, hts]
    rfl
  rw [hglobal]
  refine typeStands_typeDef hw.ground hk ⟨Nat.le_refl _, hw.ground.base⟩ ?_
  simp only [Writing.isGlobalType, Bool.and_eq_true, Option.isNone_iff_eq_none, beq_iff_eq,
    List.isEmpty_iff] at h
  obtain ⟨⟨⟨hassembly, henclosing⟩, hidns⟩, hidname⟩ := h
  rw [definitionIdentity_top hd, hname, hns, ← hidname, ← hidns]
  have := enclosing_eq hk.normal
  rw [henclosing] at this
  cases id
  cases this
  cases hassembly
  rfl

/-- The assembly of a type comes first, and nobody is asked for the type. -/
theorem typeRowIn_stands_of {names : List Bytes} {id : TypeIdentity} (hk : C.Known id)
    (he : id.enclosing.getD [] = names) (hw : C.Faithful .null w)
    (hrow : ∀ {assembly w₁ r w'}, C.Faithful .null w₁ → C.AssemblyOf w₁.store id assembly →
      Gives (match names with
        | outer :: rest => do
            let declaring ← Writing.typeRowIn rest (Writing.outerIdentity id outer rest)
            Writing.rowInside declaring id.name
        | [] =>
            if assembly.isNull then Writing.topDefinition id.ns id.name
            else Writing.referenceIn assembly id.ns id.name) w₁ r w' →
      C.Faithful r w' ∧ w₁.TypeStep w' ∧ C.TypeStands w'.store id r ∧ AddsWithin names.length w₁ w')
    (h : Gives (Writing.typeRowIn names id) w r w') :
    C.Faithful .null w' ∧ w.TypeStep w' ∧ C.TypeHeld w' id r ∧
      AddsWithin (names.length + 1) w w' := by
  rw [Writing.typeRowIn.eq_def] at h
  refine rememberType_stands hw hk.normal (congrArg List.length he) (fun {r w'} h => ?_) h
  split at h
  · next hglobal =>
      rw [gives_bind_store, gives_bind_writer, hw.image] at h
      obtain ⟨rfl, rfl⟩ := gives_pure.1 h
      exact ⟨hw.weaken, .refl _, globalType_stands hw hk hglobal, addsWithin_of_eq _ rfl⟩
  · cases ha : id.assembly with
    | none =>
        rw [ha] at h
        dsimp only at h
        rw [pure_bind, hw.gives_askForType] at h
        exact hrow hw (.own ha) h
    | some n =>
        obtain ⟨a, hplain, rfl⟩ := hk.label ha
        rw [ha] at h
        obtain ⟨assembly, w₁, hassembly, h⟩ := gives_bind.1 h
        obtain ⟨hw₁, hst, htypes, i, b, rfl, hm, hl⟩ := assemblyRow_stands hw hplain hassembly
        rw [hw₁.gives_askForType] at h
        obtain ⟨hw₂, hst₂, hs, hadds⟩ := hrow hw₁ (.other i b hm (ha.trans (congrArg some hl.symm))) h
        exact ⟨hw₂, hst.trans hst₂, hs, (addsWithin_of_eq _ htypes).trans hadds⟩

/-- The row of a type stands for it, and so does that of each type around it. -/
theorem typeRowIn_stands (names : List Bytes) {id : TypeIdentity} (hk : C.Known id)
    (he : id.enclosing.getD [] = names) (hw : C.Faithful .null w)
    (h : Gives (Writing.typeRowIn names id) w r w') :
    C.Faithful .null w' ∧ w.TypeStep w' ∧ C.TypeHeld w' id r ∧
      AddsWithin (names.length + 1) w w' := by
  induction names generalizing id w r w' with
  | nil =>
      refine typeRowIn_stands_of hk he hw (fun {assembly w₁ r w'} hw₁ ha h => ?_) h
      have henclosing := enclosing_eq hk.normal
      rw [he] at henclosing
      cases ha with
      | own ha =>
          have hid : id = ⟨id.name, id.ns, none, none⟩ := by
            cases id
            cases ha
            cases henclosing
            rfl
          obtain ⟨hw₂, hst, hwriter, hs⟩ := topDefinition_stands hw₁ hk hid h
          exact ⟨hw₂, hst, hs, addsWithin_of_eq _ (congrArg _ hwriter)⟩
      | other n a hm ha =>
          obtain ⟨hw₂, hst, hwriter, i, rfl, hr⟩ :=
            referenceIn_stands hw₁ (List.mem_append_left _ hm) h
          have hstands : C.Stands w'.store (.typeRef i id.ns id.name (.assemblyRef n a)) _ :=
            stands_typeRef rfl
          have heq : Reading.referenceIdentity C.source.options a id.ns id.name (.assemblyRef n a) =
              id := by
            cases id
            cases ha
            cases henclosing
            rfl
          rw [heq] at hstands
          exact ⟨hw₂.weaken, hst, ⟨hk, hstands, nofun, fun _ => hr⟩,
            addsWithin_of_eq _ (congrArg _ hwriter)⟩
  | cons outer rest ih =>
      refine typeRowIn_stands_of hk he hw (fun {assembly w₁ r w'} hw₁ _ h => ?_) h
      obtain ⟨d, w₂, hd, h⟩ := gives_bind.1 h
      obtain ⟨hw₂, hst₂, hs₂, hadds⟩ := ih (hk.outer he) (outerIdentity_enclosing _ _ _) hw₁ hd
      obtain ⟨hw₃, hst₃, hwriter, hs₃⟩ := rowInside_stands hw₂ hk he hs₂.stands h
      exact ⟨hw₃, hst₂.trans hst₃, hs₃, hadds.trans (addsWithin_of_eq _ (congrArg _ hwriter))⟩

/-- The row that a writer finds or makes for a type stands for it. -/
theorem typeRow_stands {id : TypeIdentity} (hk : C.Known id) (hw : C.Faithful .null w)
    (h : Gives (Writing.typeRow id) w r w') :
    C.Faithful .null w' ∧ w.TypeStep w' ∧ C.TypeHeld w' id r := by
  obtain ⟨hw', hst, hs, -⟩ := typeRowIn_stands _ hk rfl hw h
  exact ⟨hw', hst, hs⟩

end Copy

end CilCatalog
