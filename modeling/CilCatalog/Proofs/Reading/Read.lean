import CilCatalog.Proofs.Reading.References

/-!
# What has been read

`Read m ρ x a` says that `x` has given `a` in some sound state from which nothing was lost up to `ρ`.  For a steady `x` this is the same as giving `a` in `ρ` itself (`Read.gives`), but it comes apart where `x` is put together.
-/

namespace CilCatalog

open Live

variable {m : Source} {ρ ρ' : Reader} {α β : Type}

/-- The computation has given the value before. -/
def Read (m : Source) (ρ : Reader) (x : Reading α) (a : α) : Prop :=
  ∃ ρ₀ ρ₁, Sound m ρ₀ ∧ Gives x ρ₀ a ρ₁ ∧ ρ₁.Grows ρ

namespace Read

theorem of_gives {x : Reading α} {a : α} (hs : Sound m ρ) (h : Gives x ρ a ρ') : Read m ρ' x a :=
  ⟨ρ, ρ', hs, h, .refl ρ'⟩

theorem grow {x : Reading α} {a : α} (h : Read m ρ x a) (hg : ρ.Grows ρ') : Read m ρ' x a := by
  obtain ⟨ρ₀, ρ₁, hs, hx, hg'⟩ := h
  exact ⟨ρ₀, ρ₁, hs, hx, hg'.trans hg⟩

/-- What has been read steadily is read again without a change. -/
theorem gives {x : Reading α} {a : α} (h : Read m ρ x a) (hx : Steady m x) (hs : Sound m ρ) :
    Gives x ρ a ρ := by
  obtain ⟨ρ₀, ρ₁, hs₀, h, hg⟩ := h
  exact hx.stays hs₀ h hg hs

theorem unique {x : Reading α} {a b : α} (h : Read m ρ x a) (h' : Read m ρ x b) (hx : Steady m x)
    (hs : Sound m ρ) : a = b :=
  ((h.gives hx hs).unique (h'.gives hx hs)).1

/-! ### Taking apart what has been read -/

theorem of_bind {x : Reading α} {f : α → Reading β} {b : β} (h : Read m ρ (x >>= f) b)
    (hx : Steady m x) (hf : ∀ a, Steady m (f a)) : ∃ a, Read m ρ x a ∧ Read m ρ (f a) b := by
  obtain ⟨ρ₀, ρ₁, hs, h, hg⟩ := h
  obtain ⟨a, ρ₂, ha, hb⟩ := gives_bind.1 h
  have hs₂ := hx.sound hs ha
  exact ⟨a, ⟨ρ₀, ρ₂, hs, ha, ((hf a).grows hs₂ hb).trans hg⟩, ⟨ρ₂, ρ₁, hs₂, hb, hg⟩⟩

theorem of_pure {a b : α} (h : Read m ρ (pure a : Reading α) b) : b = a := by
  obtain ⟨ρ₀, ρ₁, -, h, -⟩ := h
  exact (gives_pure.1 h).1

theorem of_bind_pure {x : Reading α} {f : α → β} {b : β}
    (h : Read m ρ (x >>= fun a => pure (f a)) b) (hx : Steady m x) :
    ∃ a, Read m ρ x a ∧ b = f a := by
  obtain ⟨a, ha, hb⟩ := h.of_bind hx fun _ => .pure _
  exact ⟨a, ha, hb.of_pure⟩

theorem of_map {x : Reading α} {f : α → β} {b : β} (h : Read m ρ (f <$> x) b) (hx : Steady m x) :
    ∃ a, Read m ρ x a ∧ b = f a := by
  rw [map_eq_pure_bind] at h
  exact h.of_bind_pure hx

theorem not_throw {f : Failure ReadFault} {a : α} : ¬ Read m ρ (throw f : Reading α) a := by
  rintro ⟨ρ₀, ρ₁, -, h, -⟩
  exact gives_throw h

theorem not_refuse {f : ReadFault} {a : α} : ¬ Read m ρ (Reading.refuse f : Reading α) a := not_throw

theorem of_options {o : Options} (h : Read m ρ Reading.options o) : o = m.options := by
  obtain ⟨ρ₀, ρ₁, hs, h, -⟩ := h
  rw [(gives_options.1 h).1, hs.options]

theorem of_mapM {f : α → Reading β} {as : List α} {bs : List β} (h : Read m ρ (as.mapM f) bs)
    (hf : ∀ a, Steady m (f a)) : List.Forall₂ (fun a b => Read m ρ (f a) b) as bs := by
  induction as generalizing bs with
  | nil =>
      obtain rfl := h.of_pure
      exact .nil
  | cons a as ih =>
      rw [List.mapM_cons] at h
      obtain ⟨b, hb, h⟩ := h.of_bind (hf a) fun _ => (Steady.mapM as hf).bind fun _ => .pure _
      obtain ⟨bs', hbs, rfl⟩ := h.of_bind_pure (Steady.mapM as hf)
      exact .cons hb (ih hbs)

theorem of_option_mapM {f : α → Reading β} {o : Option α} {p : Option β}
    (h : Read m ρ (o.mapM f) p) (hf : ∀ a, Steady m (f a)) :
    (o = none ∧ p = none) ∨ ∃ a b, o = some a ∧ p = some b ∧ Read m ρ (f a) b := by
  cases o with
  | none => exact .inl ⟨rfl, h.of_pure⟩
  | some a =>
      obtain ⟨b, hb, rfl⟩ := of_map h (hf a)
      exact .inr ⟨a, b, rfl, rfl, hb⟩

theorem of_reference {ι δ : Type} [Identity ι] [NormalForm ι] {P : Reader.Part ι δ} {id : ι} {t : Token}
    (h : Read m ρ (P.reference id) t) (hid : Normal id) :
    ∃ r, (P.ledger ρ).find? id = some r ∧ r.token = t := by
  obtain ⟨ρ₀, ρ₁, hs, h, hg⟩ := h
  obtain ⟨r, hr, rfl⟩ := P.recorded_of_reference hs hid h
  obtain ⟨r', hr', ht, -⟩ := P.grown hg id r hid hr
  exact ⟨r', hr', ht⟩

theorem of_typeReference {id : TypeIdentity} {t : Token} (h : Read m ρ (Reading.typeReference id) t)
    (hid : Normal id) : ∃ r, ρ.registry.types.find? id = some r ∧ r.token = t :=
  of_reference (P := .types) h hid

theorem of_fieldReference {id : MemberIdentity} {t : Token}
    (h : Read m ρ (Reading.fieldReference id) t) :
    ∃ r, ρ.registry.fields.find? id = some r ∧ r.token = t :=
  of_reference (P := .fields) h trivial

theorem of_methodReference {id : MemberIdentity} {t : Token}
    (h : Read m ρ (Reading.methodReference id) t) :
    ∃ r, ρ.registry.methods.find? id = some r ∧ r.token = t :=
  of_reference (P := .methods) h trivial

theorem of_checkConvention {raw : UInt8} {f : Unit → Reading β} {b : β}
    (h : Read m ρ (Reading.checkConvention raw >>= f) b) (hf : Steady m (f ())) :
    CallingConvention.isMethodLikeRaw raw = true ∧ Read m ρ (f ()) b := by
  obtain ⟨u, ⟨ρ₀, ρ₁, hs, hu, hg⟩, h⟩ := h.of_bind (Steady.checkConvention raw) fun _ => hf
  exact ⟨(gives_checkConvention.1 hu).1, h⟩

theorem of_declaringType {s : Store} {what : String} {name : Bytes} {d : Option TypeId} {t : TypeId}
    (h : Read m ρ (Reading.declaringType s what name d) t) :
    d = some t ∧ (s.typeDef t).image = m.image := by
  obtain ⟨ρ₀, ρ₁, hs, h, -⟩ := h
  obtain ⟨hd, hi, -⟩ := gives_declaringType.1 h
  exact ⟨hd, by rw [hi, hs.image]⟩

end Read

end CilCatalog
