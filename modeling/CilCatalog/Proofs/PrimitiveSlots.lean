import CilCatalog.Proofs.Document.Constant

/-!
# Slots lose nothing

A primitive value comes back from its slot bit for bit and without a warning, unless it is a signalling NaN of 32 bits; and the value that is read from any slot comes back from its own.  The integers are casts that are undone by casts, and the numbers of 64 bits are their slots.  The numbers of 32 bits are widened and narrowed again, which `FloatBits.narrow_widen` undoes.

A slot may hold more than 32 bits can, and its numbers are rounded then; only a NaN is warned of.  The warning compares the slot with what widening the narrowed number gives, and that is a test of bits (`FloatBits.widen_narrow_iff`): narrowing keeps the upper bits of a NaN's payload and makes it quiet, so it is undone for a NaN that is quiet and whose lower payload bits are zero.
-/

namespace CilCatalog

namespace FloatBits

/-! ### Not-a-number -/

theorem or_quietBit32_lt {q : Nat} (hq : q < weight 23) : q ||| quietBit32 < weight 23 := by
  rw [weight_eq] at hq ⊢
  exact Nat.or_lt_two_pow hq (by decide)

/-- The upper bits of a fraction field of 64 bits are one of 32 bits. -/
theorem upper_lt (n : Nat) : n % weight 52 / weight 29 < weight 23 := by
  simp only [weight_eq]
  omega

theorem isNaN32_iff {b : UInt32} :
    isNaN32 b = true ↔ b.toNat / weight 23 % weight 8 = 255 ∧ b.toNat % weight 23 ≠ 0 := by
  rw [isNaN32, Bool.and_eq_true, beq_iff_eq, bne_iff_ne]

theorem isNaN64_iff {b : UInt64} :
    isNaN64 b = true ↔ b.toNat / weight 52 % weight 11 = 2047 ∧ b.toNat % weight 52 ≠ 0 := by
  rw [isNaN64, Bool.and_eq_true, beq_iff_eq, bne_iff_ne]

/-- Narrowing a NaN keeps its sign and the upper bits of its payload, and makes it quiet. -/
theorem toNat_narrow_of_isNaN {b : UInt64} (h : isNaN64 b = true) :
    (narrow b).toNat = b.toNat / weight 63 * weight 31 +
      (255 * weight 23 + (b.toNat % weight 52 / weight 29 ||| quietBit32)) := by
  obtain ⟨he, hf⟩ := isNaN64_iff.1 h
  have hb := b.toNat_lt
  have hq := or_quietBit32_lt (upper_lt b.toNat)
  rw [narrow, he, narrowMagnitude, if_pos rfl, if_neg hf]
  refine UInt32.toNat_ofNat_of_lt' ?_
  change _ < 2 ^ 32
  generalize b.toNat % weight 52 / weight 29 ||| quietBit32 = q at hq ⊢
  simp only [weight_eq] at hq ⊢
  omega

/-- Widening a NaN keeps its sign and its payload, and makes it quiet. -/
theorem toNat_widen_of_isNaN {b : UInt32} (h : isNaN32 b = true) :
    (widen b).toNat = b.toNat / weight 31 * weight 63 +
      (2047 * weight 52 + (b.toNat % weight 23 ||| quietBit32) * weight 29) := by
  obtain ⟨he, hf⟩ := isNaN32_iff.1 h
  have hb := b.toNat_lt
  have hq : b.toNat % weight 23 ||| quietBit32 < weight 23 :=
    or_quietBit32_lt (Nat.mod_lt _ (by decide))
  rw [widen, he, widenMagnitude, if_pos rfl, if_neg hf]
  refine UInt64.toNat_ofNat_of_lt' ?_
  change _ < 2 ^ 64
  generalize b.toNat % weight 23 ||| quietBit32 = q at hq ⊢
  simp only [weight_eq] at hq ⊢
  omega

/-- A narrowed NaN is one, with the same sign and with the upper bits of the fraction for its own. -/
theorem narrow_of_isNaN {b : UInt64} (h : isNaN64 b = true) :
    isNaN32 (narrow b) = true ∧ (narrow b).toNat / weight 31 = b.toNat / weight 63 ∧
      (narrow b).toNat % weight 23 = b.toNat % weight 52 / weight 29 ||| quietBit32 := by
  have hb := b.toNat_lt
  have hq := or_quietBit32_lt (upper_lt b.toNat)
  have quiet : quietBit32 ≤ b.toNat % weight 52 / weight 29 ||| quietBit32 := Nat.right_le_or
  rw [isNaN32_iff, toNat_narrow_of_isNaN h]
  generalize b.toNat % weight 52 / weight 29 ||| quietBit32 = q at hq quiet ⊢
  simp only [quietBit32, weight_eq] at hq quiet ⊢
  omega

/-- Setting the quiet bit of a fraction field changes nothing exactly if it is set. -/
theorem or_quietBit32_eq_iff {f : Nat} (hf : f < weight 23) :
    f ||| quietBit32 = f ↔ quietBit32 ≤ f := by
  constructor
  · intro e
    rw [← e]
    exact Nat.right_le_or
  · exact fun hq => or_quietBit32 hq hf

/-- Narrowing a NaN is undone by widening exactly if the NaN is quiet and the lower bits of its payload, which narrowing drops, are zero. -/
theorem widen_narrow_iff {b : UInt64} (h : isNaN64 b = true) :
    widen (narrow b) = b ↔ b.toNat.testBit 51 = true ∧ b.toNat % 2 ^ 29 = 0 := by
  obtain ⟨hn, hs, hf⟩ := narrow_of_isNaN h
  have he := (isNaN64_iff.1 h).1
  have quiet := or_quietBit32_eq_iff (upper_lt b.toNat)
  rw [← UInt64.toNat_inj, toNat_widen_of_isNaN hn, hs, hf, Nat.or_assoc, Nat.or_self,
    Nat.testBit_eq_decide_div_mod_eq, decide_eq_true_eq]
  have hb := b.toNat_lt
  -- of the fraction with its quiet bit set only `quiet` matters: both sides are sums now
  generalize b.toNat % weight 52 / weight 29 ||| quietBit32 = q at quiet ⊢
  simp only [quietBit32, weight_eq] at he quiet ⊢
  omega

end FloatBits

/-! ### Warnings -/

namespace ConstantValue

/-- A NaN is narrowed with a warning if it is not quiet, or if the lower bits of its payload are not all zero. -/
theorem narrowingWarning?_eq (b : UInt64) : narrowingWarning? b =
    if FloatBits.isNaN64 b = true ∧ (b.toNat.testBit 51 = false ∨ b.toNat % 2 ^ 29 ≠ 0) then
      some (.narrowing b)
    else none := by
  rw [narrowingWarning?]
  by_cases h : FloatBits.isNaN64 b = true
  · have lost : FloatBits.widen (FloatBits.narrow b) ≠ b ↔
        b.toNat.testBit 51 = false ∨ b.toNat % 2 ^ 29 ≠ 0 := by
      rw [ne_eq, FloatBits.widen_narrow_iff h, Classical.not_and_iff_not_or_not, Bool.not_eq_true]
    simp only [h, Bool.true_and, bne_iff_ne, lost, true_and]
  · rw [Bool.not_eq_true] at h
    simp [h]

/-- A number that comes back from 64 bits is widened without a warning, and narrowed again without one. -/
theorem no_warning {b : UInt32} (h : ¬ FloatBits.IsSignalling b) :
    wideningWarning? b = none ∧ narrowingWarning? (FloatBits.widen b) = none := by
  rw [wideningWarning?, narrowingWarning?, FloatBits.narrow_widen h]
  simp

/-- Only the numbers of 32 bits are warned of. -/
theorem warnings_ofSlot (s : Int64) (e : ElementType) : (ofSlot s e.code).warnings =
    if e = .r4 then (narrowingWarning? s.toUInt64).toList else [] := by
  rw [ofSlot, ElementType.ofCode?_code]
  cases e <;> rfl

end ConstantValue

/-! ### Slots -/

/-- The element types whose values have a slot. -/
def ElementType.isPrimitive : ElementType → Bool
  | boolean | char | i1 | u1 | i2 | u2 | i4 | u4 | i8 | u8 | r4 | r8 => true
  | _ => false

namespace ConstantValue

variable {v : ConstantValue} {e : ElementType}

/-- A value comes back from its slot, and nothing is warned of. -/
theorem slot_returns (he : v.elementType? = some e) (hp : e.isPrimitive = true)
    (hq : ∀ b, v = .r4 b → ¬ FloatBits.IsSignalling b) :
    ∃ s, v.slot? = some s ∧ v.slotWarning? = none ∧ ofSlot s e.code = ⟨[], .ok v⟩ := by
  have returns : ∀ s, v.slot? = some s → (ofSlot s e.code).warnings = [] →
      ofSlot s e.code = ⟨[], .ok v⟩ := by
    intro s hs hw
    have hr := ofSlot_slot? he hs hq
    cases h : ofSlot s e.code with
    | mk warnings result =>
        rw [h] at hw hr
        cases hw
        cases hr
        rfl
  cases v with
  | null => exact nomatch he
  | string t => cases he; exact nomatch hp
  | r4 b =>
      cases he
      obtain ⟨widening, narrowing⟩ := no_warning (hq b rfl)
      refine ⟨_, rfl, widening, returns _ rfl ?_⟩
      rw [warnings_ofSlot, if_pos rfl, UInt64.toUInt64_toInt64, narrowing]
      rfl
  | _ =>
      cases he
      refine ⟨_, rfl, rfl, returns _ rfl ?_⟩
      rw [warnings_ofSlot]
      rfl

/-- Every slot is read as a value of the element type asked for, and the value is no signalling NaN. -/
theorem ofSlot_total (s : Int64) (hp : e.isPrimitive = true) :
    ∃ x, (ofSlot s e.code).result = .ok x ∧ x.elementType? = some e ∧
      ∀ b, x = .r4 b → ¬ FloatBits.IsSignalling b := by
  rw [ofSlot, ElementType.ofCode?_code]
  cases e with
  | r4 =>
      refine ⟨_, rfl, rfl, ?_⟩
      rintro _ ⟨⟩
      exact FloatBits.not_isSignalling_narrow _
  | boolean | char | i1 | u1 | i2 | u2 | i4 | u4 | i8 | u8 | r8 =>
      exact ⟨_, rfl, rfl, by rintro _ ⟨⟩⟩
  | _ => exact absurd hp Bool.false_ne_true

/-- Slots lose nothing.  Every primitive value but a signalling NaN comes back from its slot bit for bit, without a warning.  What is read from any slot comes back from its own slot in the same way, and reading warns exactly of a NaN of 64 bits that is to be narrowed and is not quiet, or has lower payload bits that are not all zero. -/
theorem slots_are_lossless :
    (∀ v e, v.elementType? = some e → e.isPrimitive = true →
      (∀ b, v = .r4 b → ¬ FloatBits.IsSignalling b) →
      ∃ s, v.slot? = some s ∧ v.slotWarning? = none ∧ ofSlot s e.code = ⟨[], .ok v⟩) ∧
    ∀ (s : Int64) (e : ElementType), e.isPrimitive = true →
      ∃ x s', (ofSlot s e.code).result = .ok x ∧
        (ofSlot s e.code).warnings =
          (if e = .r4 ∧ FloatBits.isNaN64 s.toUInt64 = true ∧
              (s.toUInt64.toNat.testBit 51 = false ∨ s.toUInt64.toNat % 2 ^ 29 ≠ 0) then
            [.narrowing s.toUInt64]
          else []) ∧
        x.elementType? = some e ∧ x.slot? = some s' ∧ x.slotWarning? = none ∧
        ofSlot s' e.code = ⟨[], .ok x⟩ := by
  refine ⟨fun v e he hp hq => slot_returns he hp hq, fun s e hp => ?_⟩
  obtain ⟨x, hx, he, hq⟩ := ofSlot_total s hp
  obtain ⟨s', hs, widening, again⟩ := slot_returns he hp hq
  refine ⟨x, s', hx, ?_, he, hs, widening, again⟩
  rw [warnings_ofSlot, narrowingWarning?_eq]
  by_cases hr : e = .r4
  · simp only [hr, if_true, true_and]
    split
    · rfl
    · rfl
  · simp only [hr, if_false, false_and]

/-- A quiet NaN comes back; a signalling one of 64 bits cannot be narrowed without a loss. -/
theorem slots_are_lossless_nan :
    (∃ s, (r4 0x7FC01234).slot? = some s ∧ (r4 0x7FC01234).slotWarning? = none ∧
      ofSlot s ElementType.r4.code = ⟨[], .ok (r4 0x7FC01234)⟩) ∧
    (ofSlot 0x7FF0000000000001 ElementType.r4.code).warnings = [.narrowing 0x7FF0000000000001] := by
  have quiet : ¬ FloatBits.IsSignalling 0x7FC01234 := fun h => absurd h.2 (by decide)
  refine ⟨slots_are_lossless.1 (r4 0x7FC01234) .r4 rfl rfl (by rintro _ ⟨⟩; exact quiet), ?_⟩
  obtain ⟨x, s, -, warnings, -⟩ := slots_are_lossless.2 0x7FF0000000000001 .r4 rfl
  exact warnings.trans (if_pos (by decide))

end ConstantValue

end CilCatalog
