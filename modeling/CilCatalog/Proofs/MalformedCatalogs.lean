import CilCatalog.Proofs.Uses
import CilCatalog.Proofs.Writing.Safe
import CilCatalog.Proofs.Writing.Writers
import Mathlib.Data.Finset.Card
import Mathlib.Logic.Relation

/-!
# Malformed catalogs

A writer that asks nothing can be given any catalog whose types are not nested in circles.  Nesting then comes to an end, and everything else is checked before it is relied upon.

* `Catalog.Acyclic.fits`: nesting without circles is no deeper than there are types.
* `Writers.malformed_catalogs`: the writers of a new module answer every request with rows or with a fault.
-/

namespace CilCatalog

open Live

/-! ### Nesting -/

namespace Catalog

/-- The type under one token lists the other token among the types nested in it. -/
def Lists (c : Catalog) (t u : Token) : Prop :=
  ∃ e d us, c.types.get? t = some e ∧ e.data? = some d ∧ d.nestedTypes = some us ∧ u ∈ us

/-- No type lists itself, neither directly nor by way of others. -/
def Acyclic (c : Catalog) : Prop := ∀ t, ¬ Relation.TransGen c.Lists t t

variable {c : Catalog} {t u : Token} {e : TypeEntity} {n : Nat}

open Classical in
/-- The types of the catalog that are to be written for the one under a token. -/
noncomputable def below (c : Catalog) (t : Token) : Finset Token :=
  {u ∈ c.types.keys.toFinset | Relation.ReflTransGen c.Lists t u}

theorem mem_below : u ∈ c.below t ↔ u ∈ c.types.keys ∧ Relation.ReflTransGen c.Lists t u := by
  classical rw [below, Finset.mem_filter, List.mem_toFinset]

theorem self_mem_below (h : c.types.get? t = some e) : t ∈ c.below t :=
  mem_below.2 ⟨TokenMap.mem_keys_of_get? h, .refl⟩

/-- For a type that is listed there is less to be written. -/
theorem Acyclic.below_ssubset (h : c.Acyclic) (ht : c.types.get? t = some e) (hl : c.Lists t u) :
    c.below u ⊂ c.below t := by
  refine Finset.ssubset_iff_of_subset (fun v hv => ?_) |>.2 ⟨t, self_mem_below ht, fun hu => ?_⟩
  · obtain ⟨hk, hr⟩ := mem_below.1 hv
    exact mem_below.2 ⟨hk, .head hl hr⟩
  · exact h t (.head' hl (mem_below.1 hu).2)

theorem Acyclic.fits_of_card (h : c.Acyclic) (ht : c.types.get? t = some e)
    (hn : (c.below t).card ≤ n) : c.Fits n e := by
  induction n generalizing t e with
  | zero =>
      have := Finset.card_pos.2 ⟨t, self_mem_below ht⟩
      omega
  | succ n ih =>
      intro d us hd hus u hu e' he'
      refine ih he' (Nat.le_of_lt_succ (Nat.lt_of_lt_of_le ?_ hn))
      exact Finset.card_lt_card (h.below_ssubset ht ⟨e, d, us, ht, hd, hus, hu⟩)

theorem card_below_le (c : Catalog) (t : Token) : (c.below t).card ≤ c.types.size := by
  classical
  calc (c.below t).card ≤ c.types.keys.toFinset.card := Finset.card_filter_le _ _
    _ ≤ c.types.keys.length := List.toFinset_card_le _
    _ = c.types.size := List.length_map _

/-- Nesting without circles is no deeper than there are types. -/
theorem Acyclic.fits (h : c.Acyclic) (e : TypeEntity) : c.Fits (c.types.size + 1) e :=
  fun _ _ _ _ u _ _ he' => h.fits_of_card he' (c.card_below_le u)

end Catalog

/-! ### What is answered -/

/-- The row has a name in the module, as one of an entity of this kind. -/
def Live.Store.NameableAs (s : Store) (i : ImageId) : EntityKind → Row → Prop
  | .type   => s.Nameable i
  | .field  => s.NameableField i
  | .method => s.NameableMethod i

/-- The kind of the entities that are asked for. -/
def Writer.Request.kind : Writer.Request → EntityKind
  | .type .. | .types ..     => .type
  | .field .. | .fields ..   => .field
  | .method .. | .methods .. => .method

/-- The rows that a request is answered with have names in the writer's module. -/
theorem Runs.serve_nameable {w : WriteState} (c : Catalog) (q : Writer.Request) :
    Runs WriteState.Ready w (Writer.serve c q) fun w' rs =>
      ∀ r ∈ rs, w'.store.NameableAs w'.writer.image q.kind r := by
  cases q with
  | type e level =>
      exact (Runs.type c).kept.bind fun _ h => pure (List.forall_mem_singleton.2 (h.2.types h.1))
  | field e level =>
      exact (Runs.field c).kept.bind fun _ h =>
        pure (List.forall_mem_singleton.2 (h.2.fields (Memory.mem_of_row? h.1)))
  | method e level =>
      exact (Runs.method c).kept.bind fun _ h =>
        pure (List.forall_mem_singleton.2 (h.2.methods (Memory.mem_of_row? h.1)))
  | types ts level => exact (Runs.types c).kept.imp fun h r hr => h.2.types (h.1 r hr)
  | fields ts level => exact (Runs.fields c).kept.imp fun h r hr => h.2.fields (h.1 r hr)
  | methods ts level => exact (Runs.methods c).kept.imp fun h r hr => h.2.methods (h.1 r hr)

namespace Writers

/-- What a request comes to: rows, or why there are none. -/
def outcome (v : Writers) (q : Call) : Except (Failure WriteFault) (List Row) :=
  (Writer.serve q.catalog q.request (v.state q.number)).1

/-- Writers whose module is as it should be answer with rows that have names or with a fault, and leave it so. -/
theorem Ready.answers {v : Writers} {i : ImageId} (h : v.Ready i) {q : Call}
    (acyclic : q.catalog.Acyclic) :
    (∀ e, v.outcome q = .error e → ∃ f, e = .fault f) ∧
    (∀ rows, v.outcome q = .ok rows →
      ∀ r ∈ rows, (v.served q).store.NameableAs i q.request.kind r) ∧
    (v.served q).Ready := by
  obtain ⟨rfl, ready⟩ := h q.number
  obtain ⟨hl, rows⟩ := Runs.serve_nameable q.catalog q.request ready
  have expected := (Safe.serve (.inr acyclic.fits : False ∨ _) q.request _ ready.calm.toCalm).2
  refine ⟨unbroken_iff.1 expected.unbroken, fun rs hrs r hr => ?_, hl.ready ready⟩
  have image : (v.served q).writer.image = (v.writer q.number).image := hl.writer_image
  exact image ▸ rows rs hrs r hr

/-- Whatever stands in a catalog whose types are not nested in circles, the writers of a new module answer every request with rows or with a fault, at any level and after any requests.  The rows have names, and so has everything that a writer remembers: nothing is missing where it looks. -/
theorem malformed_catalogs {s : Store} (h : s.Sealed) (name : Bytes) (qs : List Call) (q : Call)
    (acyclic : q.catalog.Acyclic) :
    (∀ e, ((start s name).afterAll qs).outcome q = .error e → ∃ f, e = .fault f) ∧
    (∀ rows, ((start s name).afterAll qs).outcome q = .ok rows → ∀ r ∈ rows,
      (((start s name).afterAll qs).served q).store.NameableAs s.nextImage q.request.kind r) ∧
    (((start s name).afterAll qs).served q).Ready :=
  ((ready_start h name).afterAll qs).answers acyclic

/-- A type that lists itself. -/
def circular : Catalog where
  options := .default
  types := ⟨[(.index 0, .definition ⟨"Outer", "N", none, none⟩ { nestedTypes := some [.index 0] })],
    by decide, rfl⟩
  fields := .empty
  methods := .empty

-- in a circle, nesting does not come to an end
example : (start .empty "m").outcome ⟨0, circular, .types [.index 0] .withChildren⟩ =
    .error .unexplained := rfl

/-! ### A malformed catalog -/

/-- The first type lists the second, which is not nested in it, and one that is not there; the second has a number for a base type. -/
def ragged : Catalog where
  options := .default
  types := ⟨[(.index 0, .definition ⟨"Outer", "N", none, none⟩
      { nestedTypes := some [.index 1, .index (-1)] }),
    (.index 1, .definition ⟨"Other", "N", none, none⟩ { baseType := some (.int32 3) })],
    by decide, rfl⟩
  fields := .empty
  methods := .empty

theorem ragged_acyclic : ragged.Acyclic := by
  have lists : ∀ {t u}, ragged.Lists t u → t = .index 0 ∧ u ≠ .index 0 := by
    rintro t u ⟨e, d, us, ht, hd, hus, hu⟩
    have key : t = .index 0 ∨ t = .index 1 := by
      simpa [ragged, TokenMap.keys] using TokenMap.mem_keys_of_get? ht
    rcases key with rfl | rfl <;> cases ht <;> cases hd <;> cases hus
    refine ⟨rfl, ?_⟩
    rintro rfl
    exact absurd hu (by decide)
  intro t ht
  obtain ⟨u, hl, hr⟩ := Relation.TransGen.head'_iff.1 ht
  obtain ⟨rfl, hu⟩ := lists hl
  rcases hr.cases_head with rfl | ⟨v, hl', -⟩
  · exact hu rfl
  · exact hu (lists hl').1

theorem malformed_catalogs_ragged : Store.Sealed .empty ∧ ragged.Acyclic ∧
    ∃ f, ((start .empty "m").afterAll [⟨0, ragged, .types [.index 1] ⟨7⟩⟩]).outcome
      ⟨0, ragged, .types [.index 0] .withChildren⟩ = .error (.fault f) := by
  obtain ⟨fault, -, -⟩ := malformed_catalogs Store.sealed_empty "m"
    [⟨0, ragged, .types [.index 1] ⟨7⟩⟩] ⟨0, ragged, .types [.index 0] .withChildren⟩ ragged_acyclic
  obtain ⟨f, hf⟩ := fault _ rfl
  exact ⟨Store.sealed_empty, ragged_acyclic, f, by rw [← hf]; rfl⟩

end Writers

end CilCatalog
