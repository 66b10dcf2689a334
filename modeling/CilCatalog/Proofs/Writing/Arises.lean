import CilCatalog.Proofs.Writing.Makes
import CilCatalog.Proofs.Writing.Safe

/-!
# States of a writer

A writer that asks nothing serves any requests, while its module may be extended by others.

* `WriteState.Arises.ready`: whatever it is asked for, its module stays as it should be, and everything that it remembers has a name.
* `WriteState.Persists`: whatever the module is like, nothing is forgotten, and numbers of rows are given in order.
* `WriteState.Emerges.calm`: whatever the module is like, the rows that the writer remembers are there.
-/

namespace CilCatalog

open Live

/-- Whatever a writer is asked for, it does nothing but acts. -/
theorem Runs.serve {w : WriteState} (c : Catalog) (q : Writer.Request) :
    Runs WriteState.Ready w (Writer.serve c q) fun _ _ => True := by
  cases q with
  | type e level => exact (Runs.type c).bind fun _ _ => pure trivial
  | field e level => exact (Runs.field c).bind fun _ _ => pure trivial
  | method e level => exact (Runs.method c).bind fun _ _ => pure trivial
  | types ts level => exact (Runs.types c).imp fun _ => trivial
  | fields ts level => exact (Runs.fields c).imp fun _ => trivial
  | methods ts level => exact (Runs.methods c).imp fun _ => trivial

namespace WriteState

variable {w : WriteState} {i : ImageId}

/-! ### Modules as they should be -/

/-- A writer that asks nothing serves requests, and its module may be extended by others.  The states in the midst of a request count as well. -/
inductive Arises (i : ImageId) : WriteState → Prop
  | start {s : Store} (hh : s.Housed i) (ht : s.Tabled i) : Arises i ⟨s, .start i ⟨none, none⟩⟩
  | served {w : WriteState} (h : Arises i w) (c : Catalog) (q : Writer.Request) :
      Arises i (Writer.serve c q w).2
  | acting {w w' : WriteState} (h : Arises i w) (hl : w.Leads w') : Arises i w'
  | extended {w : WriteState} {s : Store} (h : Arises i w) (hg : Store.Grows i w.store s)
      (hh : s.Housed i) (ht : s.Tabled i) : Arises i (w.inStore s)

/-- The writer stays with its module and asks nothing, and everything that it remembers has a name. -/
theorem Arises.ready (h : Arises i w) : w.writer.image = i ∧ w.Ready := by
  induction h with
  | start hh ht => exact ⟨rfl, ⟨hh, ht, nofun, nofun, nofun, nofun⟩, rfl⟩
  | served _ c q ih =>
      obtain ⟨rfl, hready⟩ := ih
      have hl := (Runs.serve c q hready).1
      exact ⟨hl.writer_image, hl.ready hready⟩
  | acting _ hl ih =>
      obtain ⟨rfl, hready⟩ := ih
      exact ⟨hl.writer_image, hl.ready hready⟩
  | extended _ hg hh ht ih =>
      obtain ⟨rfl, hready⟩ := ih
      exact ⟨rfl, ⟨hh, ht, fun hr => hg.assemblyRefs (hready.assemblies hr),
        fun hr => (hready.types hr).grow hg, fun hr => (hready.fields hr).grow hg,
        fun hr => (hready.methods hr).grow hg⟩, hready.hooks⟩

/-! ### Any modules -/

/-- The writer is at work on the same module and still knows the rows that it knew, and numbers of rows are given in order. -/
structure Persists (w w' : WriteState) : Prop where
  image : w'.writer.image = w.writer.image
  images : w'.store.images.length = w.store.images.length
  nextRow : w.store.nextRow ≤ w'.store.nextRow
  types : ∀ {id r}, w.writer.types.row? id = some r → w'.writer.types.row? id = some r
  fields : ∀ {id r}, w.writer.fields.row? id = some r → w'.writer.fields.row? id = some r
  methods : ∀ {id r}, w.writer.methods.row? id = some r → w'.writer.methods.row? id = some r

namespace Persists

variable {w' w'' : WriteState}

theorem trans (h : w.Persists w') (h' : w'.Persists w'') : w.Persists w'' where
  image := h'.image.trans h.image
  images := h'.images.trans h.images
  nextRow := Nat.le_trans h.nextRow h'.nextRow
  types hr := h'.types (h.types hr)
  fields hr := h'.fields (h.fields hr)
  methods hr := h'.methods (h.methods hr)

/-- Nothing is forgotten by changing the store. -/
theorem inStore {s : Store} (hi : s.images.length = w.store.images.length)
    (hn : w.store.nextRow ≤ s.nextRow) : w.Persists (w.inStore s) := ⟨rfl, hi, hn, id, id, id⟩

theorem resolves (h : w.Persists w') {c : Catalog} {kind : EntityKind} {k : Token} {r : Row}
    (hr : w.Resolves c kind k r) : w'.Resolves c kind k r := by
  cases kind with
  | type => exact hr.imp fun _ hr => ⟨hr.1, h.types hr.2⟩
  | field => exact hr.imp fun _ hr => ⟨hr.1, h.fields hr.2⟩
  | method => exact hr.imp fun _ hr => ⟨hr.1, h.methods hr.2⟩

end Persists

theorem shaping_persists : Shaping Persists where
  trans h h' := h.trans h'
  rows hs := .inStore hs.images hs.nextRow
  addType _ _ _ _ := .inStore (Store.length_modifyImage ..) (Nat.le_refl _)
  addNestedType _ _ _ _ _ := .inStore rfl (Nat.le_refl _)
  addField _ _ _ := .inStore rfl (Nat.le_refl _)
  addMethod _ _ _ := .inStore rfl (Nat.le_refl _)
  changeField _ _ _ := .inStore rfl (Nat.le_refl _)
  changeMethod _ _ _ := .inStore rfl (Nat.le_refl _)
  changeType _ _ _ _ := .inStore rfl (Nat.le_refl _)
  note _ _ _ := ⟨rfl, rfl, Nat.le_refl _, id, id, id⟩
  noteType _ _ _ := ⟨rfl, rfl, Nat.le_refl _, Memory.row?_append, id, id⟩
  noteField _ _ _ := ⟨rfl, rfl, Nat.le_refl _, id, Memory.row?_append, id⟩
  noteMethod _ _ _ := ⟨rfl, rfl, Nat.le_refl _, id, id, Memory.row?_append⟩
  raiseType _ _ level := ⟨rfl, rfl, Nat.le_refl _, (Memory.row?_atLevel level).trans, id, id⟩
  raiseField _ _ level := ⟨rfl, rfl, Nat.le_refl _, id, (Memory.row?_atLevel level).trans, id⟩
  raiseMethod _ _ level := ⟨rfl, rfl, Nat.le_refl _, id, id, (Memory.row?_atLevel level).trans⟩

theorem persists_serve (c : Catalog) (q : Writer.Request) (w : WriteState) :
    w.Persists (Writer.serve c q w).2 := shaping_persists.serve c q w

/-- A writer that asks nothing serves requests, granted or refused, on any module whatever, which others may change as they like.  The states in the midst of a request count as well. -/
inductive Emerges (i : ImageId) : WriteState → Prop
  | start {s : Store} (hi : i.index < s.images.length) : Emerges i ⟨s, .start i ⟨none, none⟩⟩
  | served {w : WriteState} (h : Emerges i w) (c : Catalog) (q : Writer.Request) :
      Emerges i (Writer.serve c q w).2
  | acting {w w' : WriteState} (h : Emerges i w) (hl : w.Leads w') : Emerges i w'
  | changed {w : WriteState} {s : Store} (h : Emerges i w) (hi : i.index < s.images.length) :
      Emerges i (w.inStore s)

/-- The writer stays with its module and asks nothing, and the rows that it remembers are there. -/
theorem Emerges.calm (h : Emerges i w) : w.writer.image = i ∧ w.Calm := by
  induction h with
  | start hi => exact ⟨rfl, .start i, hi⟩
  | @served w _ c q ih =>
      obtain ⟨rfl, calm⟩ := ih
      have kept := persists_serve c q w
      refine ⟨kept.image, (Safe.serve (.inl trivial : True ∨ _) q w calm.toCalm).1, ?_⟩
      rw [kept.image, kept.images]
      exact calm.image
  | acting _ hl ih =>
      obtain ⟨rfl, calm⟩ := ih
      exact ⟨hl.writer_image, hl.keeps calm⟩
  | changed _ hi ih =>
      obtain ⟨rfl, calm⟩ := ih
      exact ⟨rfl, calm.toCalm, hi⟩

end WriteState

end CilCatalog
