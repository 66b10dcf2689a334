import CilCatalog.FloatBits
import Mathlib.Algebra.Group.Nat.Defs

/-!
# Widening is undone by narrowing

Every 32-bit pattern comes back when it is widened and narrowed again, but for the signalling NaNs, which come back quiet (`narrow_widen`): no pattern is narrowed to a signalling NaN (`not_isSignalling_narrow`).  The argument is by the exponent field: the special values, the subnormal numbers, whose leading bit is made implicit on the way up, and the normal numbers.
-/

namespace CilCatalog

namespace FloatBits

/-- A NaN without the bit that makes it quiet. -/
def IsSignalling (b : UInt32) : Prop := isNaN32 b = true ∧ b.toNat % weight 23 < quietBit32

theorem weight_eq (n : Nat) : weight n = 2 ^ n := by
  rw [weight, Nat.shiftLeft_eq, Nat.one_mul]

/-- What is a multiple needs no rounding. -/
theorem roundShift_mul (m s : Nat) : roundShift (m * weight s) s = m := by
  have hw : 0 < weight s := by
    rw [weight_eq]
    exact Nat.two_pow_pos s
  have hq : m * weight s / weight s = m := Nat.mul_div_cancel m hw
  have hr : m * weight s % weight s = 0 := Nat.mul_mod_left m (weight s)
  have hlt : decide (weight s < 2 * 0) = false := by simp
  have hne : (weight s == 2 * 0) = false := by
    rw [beq_eq_false_iff_ne]
    omega
  simp only [roundShift, hq, hr, hlt, hne, Bool.false_and, Bool.or_self, Bool.false_eq_true, if_false]

theorem narrow_of_fields {s m : Nat} (hm : m < weight 63) :
    (s * weight 63 + m) / weight 63 = s ∧ (s * weight 63 + m) / weight 52 % weight 11 = m / weight 52 ∧
      (s * weight 63 + m) % weight 52 = m % weight 52 := by
  have h63 : weight 63 = 9223372036854775808 := rfl
  have h52 : weight 52 = 4503599627370496 := rfl
  have h11 : weight 11 = 2048 := rfl
  rw [h63] at hm
  rw [h63, h52, h11]
  omega

/-- A number with its fields one behind the other. -/
theorem fields_of_sum {e f : Nat} (hf : f < weight 52) :
    (e * weight 52 + f) / weight 52 = e ∧ (e * weight 52 + f) % weight 52 = f := by
  have h52 : weight 52 = 4503599627370496 := rfl
  rw [h52] at hf ⊢
  omega

/-- The bit that makes a NaN quiet is already there. -/
theorem or_quietBit32 {f : Nat} (hq : quietBit32 ≤ f) (hf : f < weight 23) : f ||| quietBit32 = f := by
  have h22 : quietBit32 = 2 ^ 22 := rfl
  have h23 : weight 23 = 2 ^ 22 + 2 ^ 22 := rfl
  rw [h22] at hq ⊢
  obtain ⟨g, rfl⟩ := Nat.exists_eq_add_of_le hq
  have e := Nat.two_pow_add_eq_or_of_lt (show g < 2 ^ 22 by omega) 1
  rw [Nat.mul_one] at e
  rw [e, Nat.or_comm, ← Nat.or_assoc, Nat.or_self]

/-- A subnormal number without its leading bit. -/
theorem subnormal_fraction {f : Nat} (hf : f ≠ 0) (hlt : f < weight 23) :
    f.log2 ≤ 22 ∧ weight f.log2 ≤ f ∧ (f - weight f.log2) * weight (52 - f.log2) < weight 52 ∧
      weight 52 + (f - weight f.log2) * weight (52 - f.log2) = f * weight (52 - f.log2) := by
  have hk : f.log2 ≤ 22 := by
    have h : f.log2 < 23 := (Nat.log2_lt hf).2 (by rwa [weight_eq] at hlt)
    omega
  have lo : weight f.log2 ≤ f := by
    rw [weight_eq]
    exact Nat.log2_self_le hf
  have hi : f < 2 * weight f.log2 := by
    have h := Nat.lt_log2_self (n := f)
    rw [weight_eq]
    rw [Nat.pow_succ] at h
    omega
  have split : weight f.log2 * weight (52 - f.log2) = weight 52 := by
    rw [weight_eq, weight_eq, weight_eq, ← Nat.pow_add]
    congr 1
    omega
  have hw : 0 < weight (52 - f.log2) := by
    rw [weight_eq]
    exact Nat.two_pow_pos _
  refine ⟨hk, lo, ?_, ?_⟩
  · rw [← split]
    exact Nat.mul_lt_mul_of_pos_right (by omega) hw
  · rw [← split, ← Nat.add_mul]
    congr 1
    omega

/-- The magnitude of a pattern that is no signalling NaN survives, one exponent field at a time. -/
theorem narrowMagnitude_widenMagnitude {e f : Nat} (he : e < 256) (hf : f < weight 23)
    (hq : e = 255 → f ≠ 0 → quietBit32 ≤ f) :
    widenMagnitude e f < weight 63 ∧
      narrowMagnitude (widenMagnitude e f / weight 52) (widenMagnitude e f % weight 52) =
        e * weight 23 + f := by
  have h63 : weight 63 = 2048 * weight 52 := rfl
  have h52 : weight 52 = 4503599627370496 := rfl
  have h29 : weight 29 = 536870912 := rfl
  have h23 : weight 23 = 8388608 := rfl
  have hsum : ∀ {e' f' : Nat}, widenMagnitude e f = e' * weight 52 + f' → e' < 2048 → f' < weight 52 →
      narrowMagnitude e' f' = e * weight 23 + f → widenMagnitude e f < weight 63 ∧
        narrowMagnitude (widenMagnitude e f / weight 52) (widenMagnitude e f % weight 52) =
          e * weight 23 + f := by
    intro e' f' h h₁ h₂ h₃
    obtain ⟨hd, hm⟩ := fields_of_sum (e := e') h₂
    rw [h, hd, hm, h₃]
    refine ⟨?_, rfl⟩
    rw [h63, h52]
    rw [h52] at h₂
    omega
  by_cases h255 : e = 255
  · by_cases h0 : f = 0
    · -- infinity
      subst h255 h0
      exact @hsum 2047 0 rfl (by decide) (by decide) rfl
    · -- a quiet NaN
      have hbit := or_quietBit32 (hq h255 h0) hf
      subst h255
      refine @hsum 2047 (f * weight 29) ?_ (by decide) ?_ ?_
      · rw [widenMagnitude, if_pos rfl, if_neg h0, hbit]
      · rw [h29, h52]; omega
      · have hdiv : f * weight 29 / weight 29 = f := Nat.mul_div_cancel f (by decide)
        rw [narrowMagnitude, if_pos rfl, if_neg (by rw [h29]; omega), hdiv, hbit]
  · by_cases hz : e = 0
    · subst hz
      by_cases h0 : f = 0
      · -- zero
        subst h0
        exact @hsum 0 0 rfl (by decide) (by decide) rfl
      · obtain ⟨hk, -, hlt, hmul⟩ := subnormal_fraction h0 hf
        refine @hsum (f.log2 + 874) _ ?_ (by omega) hlt ?_
        · rw [widenMagnitude, if_neg (by decide), if_pos rfl, if_neg h0]
        · have hs : 926 - (f.log2 + 874) = 52 - f.log2 := by omega
          have hc : (decide (0 < f.log2 + 874) && decide (872 ≤ f.log2 + 874)) = true := by
            rw [Bool.and_eq_true, decide_eq_true_eq, decide_eq_true_eq]
            omega
          rw [narrowMagnitude, if_neg (by omega), if_neg (by omega), if_pos hc, hs, hmul,
            roundShift_mul, Nat.zero_mul, Nat.zero_add]
    · -- a normal number
      refine @hsum (e + 896) (f * weight 29) ?_ (by omega) ?_ ?_
      · rw [widenMagnitude, if_neg h255, if_neg hz]
      · rw [h29, h52]; omega
      · have hround : weight 52 + f * weight 29 = (weight 23 + f) * weight 29 := by
          rw [h52, h29, h23]
          omega
        rw [narrowMagnitude, if_neg (by omega), if_pos (by omega), hround, roundShift_mul, h23]
        omega

/-- Every pattern but a signalling NaN comes back. -/
theorem narrow_widen {b : UInt32} (h : ¬ IsSignalling b) : narrow (widen b) = b := by
  have h31 : weight 31 = 2147483648 := rfl
  have h23 : weight 23 = 8388608 := rfl
  have h8 : weight 8 = 256 := rfl
  have h63 : weight 63 = 9223372036854775808 := rfl
  have hb := b.toNat_lt
  have he : b.toNat / weight 23 % weight 8 < 256 := Nat.mod_lt _ (by decide)
  have hf : b.toNat % weight 23 < weight 23 := Nat.mod_lt _ (by decide)
  -- a NaN that is not quiet would be a signalling one
  have hq : b.toNat / weight 23 % weight 8 = 255 → b.toNat % weight 23 ≠ 0 →
      quietBit32 ≤ b.toNat % weight 23 := by
    intro h255 h0
    refine Nat.not_lt.1 fun hlt => h ⟨?_, hlt⟩
    rw [isNaN32, h255, Bool.and_eq_true]
    exact ⟨rfl, by simpa using h0⟩
  obtain ⟨hm, hn⟩ := narrowMagnitude_widenMagnitude he hf hq
  have hw : (widen b).toNat = b.toNat / weight 31 * weight 63 +
      widenMagnitude (b.toNat / weight 23 % weight 8) (b.toNat % weight 23) := by
    refine UInt64.toNat_ofNat_of_lt' ?_
    rw [h63] at hm ⊢
    rw [h31]
    change _ < 18446744073709551616
    omega
  obtain ⟨h₁, h₂, h₃⟩ := narrow_of_fields (s := b.toNat / weight 31) hm
  rw [narrow, hw]
  rw [h₁, h₂, h₃, hn]
  have back : b.toNat / weight 31 * weight 31 +
      (b.toNat / weight 23 % weight 8 * weight 23 + b.toNat % weight 23) = b.toNat := by
    rw [h31, h23, h8]
    omega
  rw [back]
  exact UInt32.ofNat_toNat

/-! ### Narrowed numbers -/

theorem roundShift_le (n s : Nat) : roundShift n s ≤ n / weight s + 1 := by
  unfold roundShift
  dsimp only
  split
  · exact Nat.le_refl _
  · exact Nat.le_succ _

/-- A narrowed magnitude is at most infinity, or that of a NaN that is quiet. -/
theorem narrowMagnitude_range {e f : Nat} (hf : f < weight 52) :
    narrowMagnitude e f ≤ 255 * weight 23 ∨
      ∃ q, narrowMagnitude e f = 255 * weight 23 + q ∧ quietBit32 ≤ q ∧ q < weight 23 := by
  have h52 : weight 52 = 4503599627370496 := rfl
  have h29 : weight 29 = 536870912 := rfl
  have h23 : weight 23 = 8388608 := rfl
  unfold narrowMagnitude
  split
  · split
    · exact .inl (Nat.le_refl _)
    · refine .inr ⟨_, rfl, Nat.right_le_or, ?_⟩
      have quiet : quietBit32 < 2 ^ 23 := by decide
      rw [weight_eq 23]
      refine Nat.or_lt_two_pow ?_ quiet
      rw [← weight_eq, h29, h23]
      omega
  · left
    split
    · exact Nat.min_le_left _ _
    · split
      · next hle he =>
          -- a subnormal number, which has at most one bit above the fraction field
          have shifted : (weight 52 + f) / weight (926 - e) ≤ (weight 52 + f) / weight 30 := by
            refine Nat.div_le_div_left ?_ (by decide)
            rw [weight_eq, weight_eq]
            exact Nat.pow_le_pow_right (by decide) (by omega)
          have h30 : weight 30 = 1073741824 := rfl
          have := roundShift_le (weight 52 + f) (926 - e)
          rw [h52] at hf
          rw [h30] at shifted
          rw [h23]
          omega
      · exact Nat.zero_le _

/-- Narrowing never gives a signalling NaN. -/
theorem not_isSignalling_narrow (b : UInt64) : ¬ IsSignalling (narrow b) := by
  have h63 : weight 63 = 9223372036854775808 := rfl
  have h31 : weight 31 = 2147483648 := rfl
  have h23 : weight 23 = 8388608 := rfl
  have h22 : quietBit32 = 4194304 := rfl
  have h8 : weight 8 = 256 := rfl
  have hb := b.toNat_lt
  have range := @narrowMagnitude_range (b.toNat / weight 52 % weight 11) (b.toNat % weight 52)
    (Nat.mod_lt _ (by decide))
  unfold IsSignalling isNaN32
  rw [narrow]
  generalize narrowMagnitude (b.toNat / weight 52 % weight 11) (b.toNat % weight 52) = m at range ⊢
  rw [h23, h22] at range
  have bits : (b.toNat / weight 63 * weight 31 + m).toUInt32.toNat =
      b.toNat / weight 63 * weight 31 + m := by
    refine UInt32.toNat_ofNat_of_lt' ?_
    rw [h63, h31]
    change _ < 4294967296
    rcases range with h | ⟨q, h, -, hq⟩ <;> omega
  rw [bits, h63, h31, h23, h22, h8]
  rw [Bool.and_eq_true, beq_iff_eq, bne_iff_ne]
  rintro ⟨⟨h255, h0⟩, hlt⟩
  rcases range with h | ⟨q, h, hq, hq'⟩ <;> omega

end FloatBits

end CilCatalog
