import CilCatalog.Proofs.Copying.Follows

/-!
# Rows that name types

A row of a module names a type if reading it registers the identity of that type (`gives_namedType`).  A row of a copy stands for a type if it names it, and goes on naming it as the copy grows (`Copy.Stands`).
-/

namespace CilCatalog

open Live

/-- The name under which an assembly is recorded. -/
def assemblyLabel (o : Options) (a : AssemblyName) : Bytes :=
  if o.fullAssemblyNames then a.text else a.name

/-- The row of the module names the type with the identity. -/
inductive Names (m : Source) : Row → TypeIdentity → Prop where
  | native (t : TypeId) (ht : (m.store.typeDef t).image = m.image) :
      Names m (.typeDef t) (Reading.definitionIdentity m.store t)
  | foreign (n : Nat) (ns name : Bytes) (scope : Row) (k : Nat) (a : AssemblyName)
      (ha : (Row.typeRef n ns name scope).definitionAssembly = .assemblyRef k a) :
      Names m (.typeRef n ns name scope) (Reading.referenceIdentity m.options a ns name scope)

theorem definitionAssembly_typeRef (n k : Nat) (ns ns' name name' : Bytes) (scope : Row) :
    (Row.typeRef n ns name scope).definitionAssembly =
      (Row.typeRef k ns' name' scope).definitionAssembly := by
  cases scope <;> rfl

/-- Reading a row registers the type that it names. -/
theorem gives_namedType {m : Source} {ρ ρ' : Reader} {r : Row} {k : Token}
    (hi : ρ.image = m.image) (ho : ρ.catalog.options = m.options) :
    Gives (Reading.namedType m.store r) ρ k ρ' ↔
      ∃ id, Names m r id ∧ Gives (Reading.typeReference id) ρ k ρ' := by
  constructor
  · intro h
    cases r with
    | typeDef t =>
        obtain ⟨_, ρ₁, hc, hr⟩ := gives_bind.1 h
        obtain ⟨ht, hρ⟩ := gives_checkType.1 hc
        subst hρ
        exact ⟨_, .native t (ht.trans hi), hr⟩
    | typeRef n ns name scope =>
        change Gives (Reading.referredType ns name scope) ρ k ρ' at h
        unfold Reading.referredType at h
        split at h
        · next i a ha =>
            obtain ⟨o, ρ₁, hopt, hr⟩ := gives_bind.1 h
            obtain ⟨ho', hρ⟩ := gives_options.1 hopt
            subst hρ
            rw [ho'.trans ho] at hr
            refine ⟨_, .foreign n ns name scope i a ?_, hr⟩
            rw [definitionAssembly_typeRef n 0 ns ns name name scope, ha]
        · exact absurd h gives_throw
    | _ => exact absurd h gives_throw
  · rintro ⟨id, hn, h⟩
    cases hn with
    | native t ht =>
        exact gives_bind.2 ⟨⟨⟩, ρ, gives_checkType.2 ⟨ht.trans hi.symm, rfl⟩, h⟩
    | foreign n ns name scope i a ha =>
        change Gives (Reading.referredType ns name scope) ρ k ρ'
        rw [definitionAssembly_typeRef n 0 ns ns name name scope] at ha
        unfold Reading.referredType
        rw [ha]
        exact gives_bind.2 ⟨m.options, ρ, gives_options.2 ⟨ho.symm, rfl⟩, h⟩

namespace Names

variable {m : Source} {r : Row} {id id' : TypeIdentity}

theorem normal (h : Names m r id) : Normal id := by
  cases h with
  | native t _ => exact definitionIdentity_normal _ t
  | foreign n ns name scope k a _ => exact referenceIdentity_normal _ a ns name scope

/-- A row names one type. -/
theorem unique (h : Names m r id) (h' : Names m r id') : id = id' := by
  cases h with
  | native t _ => cases h' with | native _ _ => rfl
  | foreign n ns name scope k a ha =>
      cases h' with
      | foreign _ _ _ _ k' a' ha' =>
          cases ha.symm.trans ha'
          rfl

/-- A row that names a type of the module is its definition. -/
theorem eq_typeDef (h : Names m r id) (ha : id.assembly = none) :
    ∃ t, r = .typeDef t ∧ (m.store.typeDef t).image = m.image ∧
      Reading.definitionIdentity m.store t = id := by
  cases h with
  | native t ht => exact ⟨t, rfl, ht, rfl⟩
  | foreign n ns name scope k a _ => exact nomatch ha

theorem isType (h : Names m r id) : r.isType = true := by
  cases h <;> rfl

theorem isNull (h : Names m r id) : r.isNull = false := by
  cases h <;> rfl

end Names

/-- The types among the rows are there, and the assemblies have plain names. -/
structure Source.Plain (m : Source) (rs : List Row) : Prop where
  types : ∀ t, Row.typeDef t ∈ rs → t.index < m.store.typeDefs.length
  assemblies : ∀ n a, Row.assemblyRef n a ∈ rs → a.IsPlain

/-- The assembly of a type reference is among its rows. -/
theorem mem_rows_of_definitionAssembly {r : Row} {k : Nat} {a : AssemblyName}
    (h : r.definitionAssembly = .assemblyRef k a) : Row.assemblyRef k a ∈ r.rows := by
  cases r with
  | typeRef n ns name scope =>
      cases scope with
      | assemblyRef i b =>
          cases h
          exact List.mem_cons_of_mem _ List.mem_cons_self
      | typeRef i ns' name' scope' =>
          exact List.mem_cons_of_mem _ (mem_rows_of_definitionAssembly h)
      | _ => exact nomatch h
  | _ => exact nomatch h

namespace Copy

variable {C : Copy}

/-- A type of the module or around one, or one of an assembly whose name is plain. -/
inductive Known (C : Copy) (id : TypeIdentity) : Prop where
  | native (t : TypeId) (ht : C.source.Near t)
      (hid : id = Reading.definitionIdentity C.source.store t)
  | foreign (a : AssemblyName) (ha : a.IsPlain)
      (hid : id.assembly = some (assemblyLabel C.source.options a)) (hn : Normal id)

theorem Known.normal {id : TypeIdentity} (h : C.Known id) : Normal id := by
  cases h with
  | native t _ hid => exact hid ▸ definitionIdentity_normal _ t
  | foreign a _ _ hn => exact hn

/-- What a row of the module names is known. -/
theorem known_of_names {r : Row} {id : TypeIdentity} (hr : C.source.Plain r.rows)
    (h : Names C.source r id) : C.Known id := by
  cases h with
  | native t ht => exact .native t (.own ⟨hr.types t List.mem_cons_self, ht⟩) rfl
  | foreign n ns name scope k a ha =>
      exact .foreign a (hr.assemblies k a (mem_rows_of_definitionAssembly ha)) rfl
        (referenceIdentity_normal _ a ns name scope)

/-- The row of the copy names the type, now and when the copy has grown. -/
def Stands (C : Copy) (σ : Store) (r : Row) (id : TypeIdentity) : Prop :=
  ∀ σ', σ.Extends σ' → Names (C.target σ') r id

theorem Stands.extends {σ σ' : Store} {r : Row} {id : TypeIdentity} (h : C.Stands σ r id)
    (he : σ.Extends σ') : C.Stands σ' r id :=
  fun σ'' he' => h σ'' (he.trans he')

theorem Stands.names {σ : Store} {r : Row} {id : TypeIdentity} (h : C.Stands σ r id) :
    Names (C.target σ) r id := h σ (.refl σ)

/-- A type of the copy stands for the identity that it has. -/
theorem stands_typeDef {σ : Store} (hl : σ.Layered C.base C.image) {t : TypeId}
    (ht : σ.TypeIn C.base t) : C.Stands σ (.typeDef t) (Reading.definitionIdentity σ t) := by
  intro σ' he
  rw [← definitionIdentity_extends hl he ht]
  refine .native t ?_
  rw [target, Store.image_extends ht.2 he]
  exact (hl t ht).1

/-- A type reference says by itself what it names. -/
theorem stands_typeRef {σ : Store} {n : Nat} {ns name : Bytes} {scope : Row} {k : Nat}
    {a : AssemblyName} (ha : (Row.typeRef n ns name scope).definitionAssembly = .assemblyRef k a) :
    C.Stands σ (.typeRef n ns name scope)
      (Reading.referenceIdentity C.source.options a ns name scope) :=
  fun _ _ => .foreign n ns name scope k a ha

/-- Reading a row that stands for a type follows reading one that names it. -/
theorem echo_namedType {σ : Store} {r r' : Row} {id : TypeIdentity} (hn : Names C.source r id)
    (hs : C.Stands σ r' id) :
    C.Echo σ (Reading.namedType C.source.store r) (Reading.namedType · r') := by
  intro σ' he ρ k ρ' hi ho h
  obtain ⟨id', hn', h⟩ := (gives_namedType hi ho).1 h
  obtain rfl := hn.unique hn'
  obtain ⟨hi', ho', hreg⟩ := Follows.typeReference id ρ k ρ' hi ho h
  have himage : (ρ.onto C.image).image = (C.target σ').image := rfl
  exact ⟨hi', ho', (gives_namedType himage ho).2 ⟨id, hs σ' he, hreg⟩⟩

/-- What has been read of a row that names a type. -/
theorem read_namedType {r : Row} {k : Token}
    (h : Read C.source C.reader (Reading.namedType C.source.store r) k) :
    ∃ id e, Names C.source r id ∧ C.catalog.types.get? k = some e ∧ e.identity = id := by
  have hg := h.gives (Steady.namedType _ _) C.sound
  obtain ⟨id, hn, hg⟩ := (gives_namedType C.sound.image C.sound.options).1 hg
  obtain ⟨reg, hr, rfl⟩ := Reader.Part.types.recorded_of_reference C.sound hn.normal hg
  obtain ⟨e, he, hid, -⟩ := C.sound.types.found id reg hn.normal hr
  exact ⟨id, e, hn, he, hid⟩

end Copy

end CilCatalog
