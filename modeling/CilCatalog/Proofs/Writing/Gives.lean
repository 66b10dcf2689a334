import CilCatalog.Proofs.Gives
import CilCatalog.Proofs.Ledger
import CilCatalog.Writing.Entity

/-!
# Successful runs of a writer

What the elementary computations of a writer give and do, and when.
-/

namespace CilCatalog

variable {w w' : WriteState} {α β : Type}

@[simp] theorem gives_refuseWrite {f : WriteFault} {a : α} :
    ¬ Gives (Writing.refuse f : Writing α) w a w' := gives_throw

theorem gives_store {s : Live.Store} : Gives Writing.store w s w' ↔ s = w.store ∧ w' = w := by
  unfold Writing.store
  rw [gives_bind]
  constructor
  · rintro ⟨v, w₁, hg, hp⟩
    obtain ⟨rfl, rfl⟩ := gives_get.1 hg
    exact gives_pure.1 hp
  · rintro ⟨rfl, rfl⟩
    exact ⟨_, _, gives_get.2 ⟨rfl, rfl⟩, gives_pure.2 ⟨rfl, rfl⟩⟩

theorem gives_writer {v : Writer} : Gives Writing.writer w v w' ↔ v = w.writer ∧ w' = w := by
  unfold Writing.writer
  rw [gives_bind]
  constructor
  · rintro ⟨v, w₁, hg, hp⟩
    obtain ⟨rfl, rfl⟩ := gives_get.1 hg
    exact gives_pure.1 hp
  · rintro ⟨rfl, rfl⟩
    exact ⟨_, _, gives_get.2 ⟨rfl, rfl⟩, gives_pure.2 ⟨rfl, rfl⟩⟩

theorem gives_modifyStore {f : Live.Store → Live.Store} {u : Unit} :
    Gives (Writing.modifyStore f) w u w' ↔ w' = { w with store := f w.store } := gives_modify

theorem gives_modifyWriter {f : Writer → Writer} {u : Unit} :
    Gives (Writing.modifyWriter f) w u w' ↔ w' = { w with writer := f w.writer } := gives_modify

theorem gives_making {make : Live.ImageId → Live.Store → α × Live.Store} {a : α} :
    Gives (Writing.making make) w a w' ↔
      a = (make w.writer.image w.store).1 ∧
        w' = { w with store := (make w.writer.image w.store).2 } := by
  unfold Writing.making
  rw [gives_bind]
  constructor
  · rintro ⟨v, w₁, hg, h⟩
    obtain ⟨rfl, rfl⟩ := gives_get.1 hg
    obtain ⟨u, w₂, hset, hp⟩ := gives_bind.1 h
    obtain rfl := gives_set.1 hset
    exact gives_pure.1 hp
  · rintro ⟨rfl, rfl⟩
    exact ⟨w, w, gives_get.2 ⟨rfl, rfl⟩,
      gives_bind.2 ⟨⟨⟩, _, gives_set.2 rfl, gives_pure.2 ⟨rfl, rfl⟩⟩⟩

theorem gives_lookUp {named : Bool} {m : TokenMap named α} {t : Token} {a : α} :
    Gives (Writing.lookUp m t) w a w' ↔ m.get? t = some a ∧ w' = w := by
  unfold Writing.lookUp
  cases hm : m.get t with
  | ok b =>
      dsimp only
      rw [gives_pure, TokenMap.get?_of_get hm, Option.some.injEq, eq_comm]
  | error f =>
      refine iff_of_false gives_refuseWrite ?_
      rintro ⟨h, -⟩
      rw [TokenMap.get_of_get? h] at hm
      exact nomatch hm

theorem gives_argument {e : Except (Failure ArgumentFault) α} {a : α} :
    Gives (Writing.argument e) w a w' ↔ e = .ok a ∧ w' = w := by
  unfold Writing.argument
  cases e with
  | ok b => rw [gives_pure, Except.ok.injEq, eq_comm]
  | error e => exact iff_of_false gives_throw (by rintro ⟨h, -⟩; exact nomatch h)

theorem gives_askable {b : Bool} {u : Unit} :
    Gives (Writing.askable b) w u w' ↔ b = false ∧ w' = w := by
  cases b with
  | true => exact iff_of_false gives_throw fun h => Bool.false_ne_true h.1.symm
  | false => exact gives_pure.trans (and_congr_left' (iff_of_true rfl rfl))

/-- A reference that has been made had a scope, and has been put into its table. -/
theorem gives_createTypeRef {ns name : Bytes} {scope r : Live.Row}
    (h : Gives (Writing.tryMaking fun i s => s.createTypeRef i ns name scope) w r w') :
    Gives (Writing.making fun i s => s.addTypeRef i ns name scope) w r w' := by
  unfold Writing.tryMaking at h
  cases hs : scope.isNull with
  | true =>
      simp only [Live.Store.createTypeRef, hs, if_true] at h
      obtain ⟨_, _, -, h⟩ := gives_bind.1 h
      exact absurd h gives_throw
  | false =>
      simp only [Live.Store.createTypeRef, hs, Bool.false_eq_true, if_false] at h
      exact h

/-- What leaves the state as it is, one thing after the other, gives something for each. -/
theorem gives_mapM_still {f : α → Writing β} {P : α → β → Prop} {as : List α} {bs : List β}
    (hf : ∀ {a b w w'}, Gives (f a) w b w' → w' = w ∧ P a b) (h : Gives (as.mapM f) w bs w') :
    w' = w ∧ List.Forall₂ P as bs := by
  induction as generalizing bs with
  | nil =>
      obtain ⟨rfl, rfl⟩ := gives_mapM_nil.1 h
      exact ⟨rfl, .nil⟩
  | cons a as ih =>
      obtain ⟨b, w₁, bs', hb, hbs, rfl⟩ := gives_mapM_cons.1 h
      obtain ⟨rfl, hab⟩ := hf hb
      obtain ⟨rfl, hall⟩ := ih hbs
      exact ⟨rfl, .cons hab hall⟩

/-! ### With something behind them -/

section Bind

variable {a : β}

theorem gives_bind_store {k : Live.Store → Writing β} :
    Gives (Writing.store >>= k) w a w' ↔ Gives (k w.store) w a w' := by
  rw [gives_bind]
  constructor
  · rintro ⟨s, w₁, hs, h⟩
    obtain ⟨rfl, rfl⟩ := gives_store.1 hs
    exact h
  · exact fun h => ⟨_, _, gives_store.2 ⟨rfl, rfl⟩, h⟩

theorem gives_bind_writer {k : Writer → Writing β} :
    Gives (Writing.writer >>= k) w a w' ↔ Gives (k w.writer) w a w' := by
  rw [gives_bind]
  constructor
  · rintro ⟨v, w₁, hv, h⟩
    obtain ⟨rfl, rfl⟩ := gives_writer.1 hv
    exact h
  · exact fun h => ⟨_, _, gives_writer.2 ⟨rfl, rfl⟩, h⟩

theorem gives_bind_modifyWriter {f : Writer → Writer} {k : Unit → Writing β} :
    Gives (Writing.modifyWriter f >>= k) w a w' ↔
      Gives (k ()) { w with writer := f w.writer } a w' := by
  rw [gives_bind]
  constructor
  · rintro ⟨u, w₁, hu, h⟩
    obtain rfl := gives_modifyWriter.1 hu
    exact h
  · exact fun h => ⟨_, _, gives_modifyWriter.2 rfl, h⟩

theorem gives_bind_making {make : Live.ImageId → Live.Store → α × Live.Store}
    {k : α → Writing β} : Gives (Writing.making make >>= k) w a w' ↔
      Gives (k (make w.writer.image w.store).1)
        { w with store := (make w.writer.image w.store).2 } a w' := by
  rw [gives_bind]
  constructor
  · rintro ⟨v, w₁, hv, h⟩
    obtain ⟨rfl, rfl⟩ := gives_making.1 hv
    exact h
  · exact fun h => ⟨_, _, gives_making.2 ⟨rfl, rfl⟩, h⟩

theorem gives_bind_lookUp {named : Bool} {m : TokenMap named α} {t : Token} {k : α → Writing β} :
    Gives (Writing.lookUp m t >>= k) w a w' ↔ ∃ v, m.get? t = some v ∧ Gives (k v) w a w' := by
  rw [gives_bind]
  constructor
  · rintro ⟨v, w₁, hu, h⟩
    obtain ⟨hv, rfl⟩ := gives_lookUp.1 hu
    exact ⟨v, hv, h⟩
  · rintro ⟨v, hv, h⟩
    exact ⟨v, w, gives_lookUp.2 ⟨hv, rfl⟩, h⟩

theorem gives_bind_argument {e : Except (Failure ArgumentFault) α} {k : α → Writing β} :
    Gives (Writing.argument e >>= k) w a w' ↔ ∃ v, e = .ok v ∧ Gives (k v) w a w' := by
  rw [gives_bind]
  constructor
  · rintro ⟨v, w₁, hu, h⟩
    obtain ⟨hv, rfl⟩ := gives_argument.1 hu
    exact ⟨v, hv, h⟩
  · rintro ⟨v, hv, h⟩
    exact ⟨v, w, gives_argument.2 ⟨hv, rfl⟩, h⟩

theorem gives_bind_askable {b : Bool} {k : Unit → Writing β} :
    Gives (Writing.askable b >>= k) w a w' ↔ b = false ∧ Gives (k ()) w a w' := by
  rw [gives_bind]
  constructor
  · rintro ⟨u, w₁, hu, h⟩
    obtain ⟨hb, rfl⟩ := gives_askable.1 hu
    exact ⟨hb, h⟩
  · rintro ⟨hb, h⟩
    exact ⟨(), w, gives_askable.2 ⟨hb, rfl⟩, h⟩

/-- What is checked before a computation goes on, holds from then on. -/
theorem gives_guard {c : Prop} [Decidable c] {f : WriteFault} {k : PUnit → Writing β} :
    Gives (if c then Writing.refuse f >>= k else k ⟨⟩) w a w' ↔ ¬ c ∧ Gives (k ⟨⟩) w a w' := by
  split
  · next h =>
      refine iff_of_false (fun h' => ?_) fun h' => h'.1 h
      obtain ⟨_, _, h', -⟩ := gives_bind.1 h'
      exact gives_refuseWrite h'
  · next h => exact ⟨fun h' => ⟨h, h'⟩, fun h' => h'.2⟩

end Bind

/-! ### Members of types -/

section Members

variable {s : Live.Store} {t : Live.TypeId} {row : Live.Row}

theorem gives_nestedIn {n : Live.TypeId} (h : Gives (Writing.nestedIn s t row) w n w') :
    w' = w ∧ row = .typeDef n ∧ (s.typeDef n).declaring = some t := by
  obtain ⟨-, h⟩ := gives_bind_askable.1 h
  split at h
  · split at h
    · next hd =>
        obtain ⟨rfl, rfl⟩ := gives_pure.1 h
        exact ⟨rfl, rfl, hd⟩
    · exact absurd h gives_refuseWrite
  · exact absurd h gives_refuseWrite

theorem gives_fieldIn {f : Live.FieldId} (h : Gives (Writing.fieldIn s t row) w f w') :
    w' = w ∧ row = .fieldDef f ∧ (s.fieldDef f).declaring = some t := by
  obtain ⟨-, h⟩ := gives_bind_askable.1 h
  split at h
  · split at h
    · next hd =>
        obtain ⟨rfl, rfl⟩ := gives_pure.1 h
        exact ⟨rfl, rfl, hd⟩
    · exact absurd h gives_refuseWrite
  · exact absurd h gives_refuseWrite

theorem gives_methodIn {f : Live.MethodId} (h : Gives (Writing.methodIn s t row) w f w') :
    w' = w ∧ row = .methodDef f ∧ (s.methodDef f).declaring = some t := by
  obtain ⟨-, h⟩ := gives_bind_askable.1 h
  split at h
  · split at h
    · next hd =>
        obtain ⟨rfl, rfl⟩ := gives_pure.1 h
        exact ⟨rfl, rfl, hd⟩
    · exact absurd h gives_refuseWrite
  · exact absurd h gives_refuseWrite

end Members

end CilCatalog
