import CilCatalog.Proofs.Writing.Arises
import Mathlib.Logic.Function.Basic

/-!
# A module and its writers

Any number of writers that ask nothing write to a module that has been made for them, in any order, with requests that they grant or refuse.  Each has a number, a memory of its own, and the module in common.

* `Store.Sealed`: nothing refers to what is not there, so that what is made next is new to all.
* `Writers.Ready`: every writer finds the module as it should be.
* `Writers.invariant`: what holds of the new module and is kept by the acts of writers, holds after any requests.
-/

namespace CilCatalog

open Live

namespace Live.Store

/-! ### New modules -/

/-- Modules, declaring types and numbers of rows that are referred to are there. -/
structure Sealed (s : Store) : Prop where
  images : ∀ t : TypeId, t.index < s.typeDefs.length → (s.typeDef t).image.index < s.images.length
  types : ∀ {t o : TypeId}, (s.typeDef t).declaring = some o → o.index < s.typeDefs.length
  fields : ∀ {f : FieldId} {t}, (s.fieldDef f).declaring = some t → t.index < s.typeDefs.length
  methods : ∀ {f : MethodId} {t}, (s.methodDef f).declaring = some t → t.index < s.typeDefs.length
  rows : ∀ x ∈ s.memberRows, ∀ {n}, x.number? = some n → n < s.nextRow

theorem sealed_empty : Sealed .empty := ⟨nofun, nofun, nofun, nofun, nofun⟩

variable {s : Store} (name : Bytes)

/-- The module that is made next. -/
def nextImage (s : Store) : ImageId := ⟨s.images.length⟩

/-- The global type of the module that is made next. -/
def nextType (s : Store) : TypeId := ⟨s.typeDefs.length⟩

theorem image_createImage :
    (s.createImage name).2.image s.nextImage = ⟨name, [s.nextType], [], [], [], []⟩ := by
  rw [createImage_eq]
  simp [image, nextImage, nextType]

theorem typeDefs_createImage : (s.createImage name).2.typeDefs =
    s.typeDefs ++ [{ image := s.nextImage, ns := [], name := globalTypeName }] := by
  rw [createImage_eq]
  rfl

/-- The global type is the only one of a new module, and nothing is in it. -/
theorem Sealed.owns_createImage (h : s.Sealed) (name : Bytes) {t : TypeId}
    (ht : (s.createImage name).2.Owns s.nextImage t) : t = s.nextType := by
  have length : t.index < s.typeDefs.length + 1 := by
    have := ht.1
    rwa [typeDefs_createImage, List.length_append] at this
  rcases Nat.lt_succ_iff_lt_or_eq.1 length with hlt | heq
  · have := ht.2
    rw [typeDef_append (typeDefs_createImage name) hlt] at this
    have there := h.images t hlt
    rw [this] at there
    exact absurd there (Nat.lt_irrefl _)
  · obtain ⟨k⟩ := t
    exact congrArg TypeId.mk heq

theorem typeDef_createImage : (s.createImage name).2.typeDef s.nextType =
    { image := s.nextImage, ns := [], name := globalTypeName } :=
  typeDef_new (typeDefs_createImage name)

theorem Sealed.housed_createImage (h : s.Sealed) :
    (s.createImage name).2.Housed s.nextImage where
  image := by
    rw [createImage_eq]
    simp [nextImage]
  global := by
    rw [image_createImage]
    exact List.cons_ne_nil _ _
  tops t ht := by
    rw [image_createImage] at ht
    rw [List.mem_singleton.1 ht]
    refine ⟨?_, congrArg TypeDef.image (typeDef_createImage name)⟩
    rw [typeDefs_createImage, List.length_append]
    exact Nat.lt_succ_self _
  nested ht n hn := by
    rw [h.owns_createImage name ht, typeDef_createImage] at hn
    cases hn
  fields ht f hf := by
    rw [h.owns_createImage name ht, typeDef_createImage] at hf
    cases hf
  methods ht f hf := by
    rw [h.owns_createImage name ht, typeDef_createImage] at hf
    cases hf

theorem references_createImage : (s.createImage name).2.references s.nextImage = [] := by
  rw [references, image_createImage]
  rfl

theorem Sealed.tabled_createImage (h : s.Sealed) :
    (s.createImage name).2.Tabled s.nextImage where
  assemblies r hr := by
    rw [image_createImage] at hr
    cases hr
  types r hr := by
    rw [image_createImage] at hr
    cases hr
  references x hx := by
    rw [references_createImage] at hx
    cases hx
  members x hx := by
    refine ⟨h.rows x hx, fun _ y hy => ?_⟩
    rw [references_createImage] at hy
    cases hy

end Live.Store

/-! ### What acts keep -/

namespace WriteState

variable {w w' : WriteState} {i : ImageId}

theorem Leads.grows (hl : w.Leads w') (h : w.Ready) :
    Store.Grows w.writer.image w.store w'.store := by
  induction hl with
  | refl => exact .refl _ _
  | act hl a ih =>
      have hready := hl.ready h
      have hg := a.grows hready.image
      rw [hl.writer_image] at hg
      exact ih.trans hg

/-- What is so of a module, and stays so with every act, is so after any number of them. -/
theorem Leads.invariant {P : Store → Prop}
    (keep : ∀ {w w' : WriteState}, w.writer.image = i → w.Ready → P w.store → w.Act w' → P w'.store)
    (hl : w.Leads w') (hi : w.writer.image = i) (h : w.Ready) (hw : P w.store) : P w'.store := by
  induction hl with
  | refl => exact hw
  | act hl a ih => exact keep (hl.writer_image.trans hi) (hl.ready h) ih a

end WriteState

/-! ### Writers -/

/-- A module that is written to, and the writers by their numbers. -/
structure Writers where
  store : Store
  writer : Nat → Writer

/-- A request to one of the writers, for entities of a catalog. -/
structure Writers.Call where
  number : Nat
  catalog : Catalog
  request : Writer.Request

namespace Writers

/-- A new module, which no writer has written to yet. -/
def start (s : Store) (name : Bytes) : Writers :=
  ⟨(s.createImage name).2, fun _ => .start s.nextImage ⟨none, none⟩⟩

/-- The module and the writer with a number. -/
def state (v : Writers) (k : Nat) : WriteState := ⟨v.store, v.writer k⟩

/-- Where a request leads, granted or refused, to the writer that it is for. -/
def served (v : Writers) (q : Call) : WriteState :=
  (Writer.serve q.catalog q.request (v.state q.number)).2

/-- What becomes of the module and its writers. -/
def after (v : Writers) (q : Call) : Writers :=
  ⟨(v.served q).store, Function.update v.writer q.number (v.served q).writer⟩

/-- What becomes of the module and its writers after several requests. -/
def afterAll (v : Writers) (qs : List Call) : Writers := qs.foldl after v

/-- All writers write to a module, which is as it should be for each of them. -/
def Ready (i : ImageId) (v : Writers) : Prop :=
  ∀ k, (v.writer k).image = i ∧ (v.state k).Ready

variable {v : Writers} {i : ImageId} {s : Store} {name : Bytes}

theorem ready_start (h : s.Sealed) (name : Bytes) : (start s name).Ready s.nextImage :=
  fun _ => ⟨rfl, ⟨h.housed_createImage name, h.tabled_createImage name, nofun, nofun, nofun, nofun⟩, rfl⟩

/-- A request does nothing but acts. -/
theorem Ready.leads (h : v.Ready i) (q : Call) : (v.state q.number).Leads (v.served q) :=
  (Runs.serve q.catalog q.request (h q.number).2).1

theorem Ready.after (h : v.Ready i) (q : Call) : (v.after q).Ready i := by
  obtain ⟨himage, hready⟩ := h q.number
  have hl := h.leads q
  have hserved := hl.ready hready
  have hi : (v.served q).writer.image = i := hl.writer_image.trans himage
  intro k
  by_cases hk : k = q.number
  · subst hk
    have hw : (v.after q).writer q.number = (v.served q).writer := Function.update_self ..
    have hs : (v.after q).state q.number = v.served q := by
      rw [state, hw]
      rfl
    rw [hw, hs]
    exact ⟨hi, hserved⟩
  · -- another writer remembers what it did, and the module has grown
    have hw : (v.after q).writer k = v.writer k := Function.update_of_ne hk ..
    obtain ⟨hki, hkr⟩ := h k
    have hg : Store.Grows (v.writer k).image v.store (v.served q).store := by
      rw [hki, ← himage]
      exact hl.grows hready
    have hs : (v.after q).state k = (v.state k).inStore (v.served q).store := by
      rw [state, hw]
      rfl
    rw [hw, hs]
    refine ⟨hki, ⟨?_, ?_, fun hr => hg.assemblyRefs (hkr.assemblies hr),
      fun hr => (hkr.types hr).grow hg, fun hr => (hkr.fields hr).grow hg,
      fun hr => (hkr.methods hr).grow hg⟩, hkr.hooks⟩
    · exact hki.symm ▸ hi ▸ hserved.housed
    · exact hki.symm ▸ hi ▸ hserved.tabled

theorem Ready.afterAll (h : v.Ready i) (qs : List Call) : (v.afterAll qs).Ready i := by
  induction qs generalizing v with
  | nil => exact h
  | cons q qs ih => exact ih (h.after q)

/-- What is so of the new module, and stays so with every act of its writers, is so after any requests. -/
theorem invariant {P : Store → Prop}
    (keep : ∀ {w w' : WriteState}, w.writer.image = s.nextImage → w.Ready → P w.store → w.Act w' →
      P w'.store) (h : s.Sealed) (hs : P (s.createImage name).2) (qs : List Call) :
    P ((start s name).afterAll qs).store := by
  have run : ∀ {v : Writers}, v.Ready s.nextImage → P v.store → P (v.afterAll qs).store := by
    induction qs with
    | nil => exact fun _ hv => hv
    | cons q qs ih =>
        intro v hready hv
        exact ih (hready.after q)
          ((hready.leads q).invariant keep (hready q.number).1 (hready q.number).2 hv)
  exact run (ready_start h name) hs

end Writers

end CilCatalog
