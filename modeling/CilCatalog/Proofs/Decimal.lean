import CilCatalog.Bytes

/-!
# Decimal numerals

What the digits of a number have to do with its value: `digitsValue` takes back `decimal`, and every run of digits is a spelling of its value.  `Numeral u i` says that the octets `u` spell the integer `i`, with a minus sign in front or without; leading zeros are allowed, and so is `-0`.
-/

namespace CilCatalog

namespace Bytes

/-- A run of decimal digits that is not empty. -/
def IsDigits (ds : Bytes) : Prop := ds ≠ [] ∧ ∀ b ∈ ds, isDigit b = true

/-- The octets spell an integer: digits, or a minus sign and digits. -/
inductive Numeral : Bytes → Int → Prop where
  | plain {ds : Bytes} (h : IsDigits ds) : Numeral ds (digitsValue ds)
  | minus {ds : Bytes} (h : IsDigits ds) : Numeral (octet '-' :: ds) (-digitsValue ds)

theorem isDigit_octet {c : Char} (h : c.isDigit = true) : isDigit (octet c) = true := by
  simp only [Char.isDigit, ge_iff_le, Bool.and_eq_true, decide_eq_true_eq] at h
  have h₁ : 48 ≤ c.toNat := UInt32.le_iff_toNat_le.1 h.1
  have h₂ : c.toNat ≤ 57 := UInt32.le_iff_toNat_le.1 h.2
  simp only [isDigit, octet, Bool.and_eq_true, decide_eq_true_eq, UInt8.le_iff_toNat_le,
    UInt8.toNat_ofNat', Nat.toUInt8_eq]
  exact ⟨by simp; omega, by simp; omega⟩

/-- The octet of a digit is worth what the digit is worth. -/
theorem toNat_octet_digit {c : Char} (h : c.isDigit = true) : (octet c).toNat = c.toNat := by
  simp only [Char.isDigit, ge_iff_le, Bool.and_eq_true, decide_eq_true_eq] at h
  have h₂ : c.toNat ≤ 57 := UInt32.le_iff_toNat_le.1 h.2
  simp only [octet, Nat.toUInt8_eq, UInt8.toNat_ofNat']
  omega

theorem isDigits_decimal (n : Nat) : IsDigits (decimal n) := by
  refine ⟨by simp [decimal, Nat.toDigits_ne_nil], fun b hb => ?_⟩
  obtain ⟨c, hc, rfl⟩ := List.mem_map.1 hb
  exact isDigit_octet (Nat.isDigit_of_mem_toDigits (by decide) (by decide) hc)

theorem digitsValue_decimal (n : Nat) : digitsValue (decimal n) = n := by
  have key : ∀ (cs : List Char) (k : Nat), (∀ c ∈ cs, c.isDigit = true) →
      (cs.map octet).foldl (fun n d => 10 * n + (d.toNat - 0x30)) k = Nat.ofDigitChars 10 cs k := by
    intro cs
    induction cs with
    | nil => simp
    | cons c cs ih =>
        intro k h
        rw [List.map_cons, List.foldl_cons, ih _ fun d hd => h d (List.mem_cons_of_mem c hd),
          Nat.ofDigitChars_cons, toNat_octet_digit (h c List.mem_cons_self)]
        rfl
  rw [digitsValue, decimal, key _ _ fun c hc => Nat.isDigit_of_mem_toDigits (by decide) (by decide) hc]
  exact Nat.ofDigitChars_ten_toDigits

theorem decimal_inj {m n : Nat} (h : decimal m = decimal n) : m = n := by
  rw [← digitsValue_decimal m, h, digitsValue_decimal]

/-- Every integer is spelled by its decimal. -/
theorem numeral_signedDecimal (i : Int) : Numeral (signedDecimal i) i := by
  cases i with
  | ofNat n =>
      have h := Numeral.plain (isDigits_decimal n)
      rwa [digitsValue_decimal] at h
  | negSucc n =>
      have h := Numeral.minus (isDigits_decimal (n + 1))
      rwa [digitsValue_decimal] at h

/-- A numeral begins with a minus sign or a digit. -/
theorem Numeral.head {u : Bytes} {i : Int} (h : Numeral u i) :
    ∃ b r, u = b :: r ∧ (b = octet '-' ∨ isDigit b = true) := by
  cases h with
  | plain h =>
      obtain ⟨b, r, rfl⟩ := List.exists_cons_of_ne_nil h.1
      exact ⟨b, r, rfl, .inr (h.2 b List.mem_cons_self)⟩
  | minus h => exact ⟨_, _, rfl, .inl rfl⟩

/-! ### Spans -/

/-- The octets in front that satisfy a condition end where the next does not. -/
theorem takeWhile_append_of_head {p : UInt8 → Bool} {u r : Bytes} (hu : ∀ b ∈ u, p b = true)
    (hr : ∀ b ∈ r.head?, p b = false) : (u ++ r).takeWhile p = u := by
  rw [List.takeWhile_append_of_pos hu]
  cases r with
  | nil => simp
  | cons b r => simp [hr b rfl]

theorem dropWhile_append_of_head {p : UInt8 → Bool} {u r : Bytes} (hu : ∀ b ∈ u, p b = true)
    (hr : ∀ b ∈ r.head?, p b = false) : (u ++ r).dropWhile p = r := by
  rw [List.dropWhile_append_of_pos hu]
  cases r with
  | nil => simp
  | cons b r => simp [hr b rfl]

theorem head?_dropWhile_not {p : UInt8 → Bool} {s : Bytes} :
    ∀ b ∈ (s.dropWhile p).head?, p b = false := by
  intro b hb
  have h := List.head?_dropWhile_not p s
  rw [Option.mem_def] at hb
  rw [hb] at h
  simpa using h

end Bytes

end CilCatalog
