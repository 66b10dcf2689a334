import CilCatalog.Base64
import Mathlib.Algebra.Group.Nat.Defs

/-!
# Texts and byte strings

`Spells s b` says that the text `s` spells the octets `b`, a quad at a time: the quads in front of the last are four letters, which spell three octets, and the last one is four, three or two letters.  Decoding is reading what a text spells (`decode_eq_some_iff`), and encoding makes a text that spells the octets it is made of, so every byte string comes back from its text (`decode_encode`).

A text spells something if it comes in quads of the alphabet's characters, but for one or two characters of padding at its very end (`decode_isSome_iff`).  There are more such texts than byte strings: the last character in front of the padding spells bits that no octet takes, and decoding drops them.  Only the text in which these bits are zero is the one that encoding gives back (`Spells.encode_eq_iff`).
-/

namespace CilCatalog

namespace Base64

/-! ### Letters -/

theorem value?_letter {n : Nat} (h : n < 64) : value? (letter n) = some n := by
  have all : ∀ n : Fin 64, value? (letter n.val) = some n.val := by decide
  exact all ⟨n, h⟩

theorem letter_ne_pad {n : Nat} (h : n < 64) : (letter n == pad) = false := by
  have all : ∀ n : Fin 64, (letter n.val == pad) = false := by decide
  exact all ⟨n, h⟩

/-- The characters that spell bits, in the order of their values. -/
def alphabet : Bytes := "ABCDEFGHIJKLMNOPQRSTUVWXYZabcdefghijklmnopqrstuvwxyz0123456789+/"

/-- What has a value is the letter for it. -/
theorem letter_of_value? {c : UInt8} {n : Nat} (h : value? c = some n) : n < 64 ∧ c = letter n := by
  have all : ∀ c : Fin 256, ∀ n ∈ value? (UInt8.ofNat c.val),
      n < 64 ∧ UInt8.ofNat c.val = letter n := by decide +kernel
  have h' := all ⟨c.toNat, c.toNat_lt⟩ n
  rw [UInt8.ofNat_toNat] at h'
  exact h' h

theorem alphabet_eq : alphabet = (List.range 64).map letter := by decide +kernel

theorem mem_alphabet_iff {c : UInt8} : c ∈ alphabet ↔ ∃ n < 64, c = letter n := by
  simp [alphabet_eq, eq_comm]

theorem letter_mem {n : Nat} (h : n < 64) : letter n ∈ alphabet := mem_alphabet_iff.2 ⟨n, h, rfl⟩

theorem letter_inj {m n : Nat} (hm : m < 64) (hn : n < 64) : letter m = letter n ↔ m = n := by
  constructor
  · intro h
    have hv := value?_letter hm
    rw [h, value?_letter hn] at hv
    exact (Option.some.inj hv).symm
  · rintro rfl
    rfl

/-! ### Octets -/

/-- The octet that two letters begin, three go on with, and four end with. -/
def firstOctet (x y : Nat) : UInt8 := (x * 4 + y / 16).toUInt8

def secondOctet (y z : Nat) : UInt8 := (y % 16 * 16 + z / 4).toUInt8

def thirdOctet (z w : Nat) : UInt8 := (z % 4 * 64 + w).toUInt8

section Octets

variable {x y z w : Nat}

theorem toNat_firstOctet (hx : x < 64) (hy : y < 64) : (firstOctet x y).toNat = x * 4 + y / 16 :=
  UInt8.toNat_ofNat_of_lt' (show _ < 256 by omega)

theorem toNat_secondOctet (hz : z < 64) : (secondOctet y z).toNat = y % 16 * 16 + z / 4 :=
  UInt8.toNat_ofNat_of_lt' (show _ < 256 by omega)

theorem toNat_thirdOctet (hw : w < 64) : (thirdOctet z w).toNat = z % 4 * 64 + w :=
  UInt8.toNat_ofNat_of_lt' (show _ < 256 by omega)

theorem encode_one (hx : x < 64) (hy : y < 64) :
    encode [firstOctet x y] = [letter x, letter (y / 16 * 16), pad, pad] := by
  have h₁ : (x * 4 + y / 16) / 4 = x := by omega
  have h₂ : (x * 4 + y / 16) % 4 * 16 = y / 16 * 16 := by omega
  rw [encode, toNat_firstOctet hx hy, h₁, h₂]

theorem encode_two (hx : x < 64) (hy : y < 64) (hz : z < 64) :
    encode [firstOctet x y, secondOctet y z] = [letter x, letter y, letter (z / 4 * 4), pad] := by
  have h₁ : (x * 4 + y / 16) / 4 = x := by omega
  have h₂ : (x * 4 + y / 16) % 4 * 16 + (y % 16 * 16 + z / 4) / 16 = y := by omega
  have h₃ : (y % 16 * 16 + z / 4) % 16 * 4 = z / 4 * 4 := by omega
  rw [encode, toNat_firstOctet hx hy, toNat_secondOctet hz, h₁, h₂, h₃]

theorem encode_three (hx : x < 64) (hy : y < 64) (hz : z < 64) (hw : w < 64) (b : Bytes) :
    encode (firstOctet x y :: secondOctet y z :: thirdOctet z w :: b) =
      letter x :: letter y :: letter z :: letter w :: encode b := by
  have h₁ : (x * 4 + y / 16) / 4 = x := by omega
  have h₂ : (x * 4 + y / 16) % 4 * 16 + (y % 16 * 16 + z / 4) / 16 = y := by omega
  have h₃ : (y % 16 * 16 + z / 4) % 16 * 4 + (z % 4 * 64 + w) / 64 = z := by omega
  have h₄ : (z % 4 * 64 + w) % 64 = w := by omega
  rw [encode, toNat_firstOctet hx hy, toNat_secondOctet hz, toNat_thirdOctet hw, h₁, h₂, h₃, h₄]

end Octets

/-- The octet whose upper bits are a quotient and whose lower bits are the remainder. -/
theorem join_octet (b : UInt8) (n : Nat) : (b.toNat / n * n + b.toNat % n).toUInt8 = b := by
  rw [Nat.div_add_mod']
  exact UInt8.ofNat_toNat

section Split

variable (a b c : UInt8)

/-- The bits of three octets as four values. -/
theorem split_values :
    a.toNat / 4 < 64 ∧ a.toNat % 4 * 16 + b.toNat / 16 < 64 ∧
      b.toNat % 16 * 4 + c.toNat / 64 < 64 ∧ c.toNat % 64 < 64 := by
  have ha := a.toNat_lt
  have hb := b.toNat_lt
  have hc := c.toNat_lt
  omega

theorem firstOctet_split : firstOctet (a.toNat / 4) (a.toNat % 4 * 16 + b.toNat / 16) = a := by
  have e : (a.toNat % 4 * 16 + b.toNat / 16) / 16 = a.toNat % 4 := by
    have hb := b.toNat_lt
    omega
  rw [firstOctet, e, join_octet]

theorem secondOctet_split :
    secondOctet (a.toNat % 4 * 16 + b.toNat / 16) (b.toNat % 16 * 4 + c.toNat / 64) = b := by
  have e : (a.toNat % 4 * 16 + b.toNat / 16) % 16 = b.toNat / 16 := by
    have hb := b.toNat_lt
    omega
  have e' : (b.toNat % 16 * 4 + c.toNat / 64) / 4 = b.toNat % 16 := by
    have hc := c.toNat_lt
    omega
  rw [secondOctet, e, e', join_octet]

theorem thirdOctet_split : thirdOctet (b.toNat % 16 * 4 + c.toNat / 64) (c.toNat % 64) = c := by
  have e : (b.toNat % 16 * 4 + c.toNat / 64) % 4 = c.toNat / 64 := by
    have hc := c.toNat_lt
    omega
  rw [thirdOctet, e, join_octet]

end Split

/-! ### Texts and what they spell -/

/-- How a text spells octets, a quad at a time. -/
inductive Spells : Bytes → Bytes → Prop where
  | nil : Spells [] []
  | one {x y : Nat} (hx : x < 64) (hy : y < 64) :
      Spells [letter x, letter y, pad, pad] [firstOctet x y]
  | two {x y z : Nat} (hx : x < 64) (hy : y < 64) (hz : z < 64) :
      Spells [letter x, letter y, letter z, pad] [firstOctet x y, secondOctet y z]
  | three {x y z w : Nat} {s b : Bytes} (hx : x < 64) (hy : y < 64) (hz : z < 64) (hw : w < 64)
      (hs : Spells s b) : Spells (letter x :: letter y :: letter z :: letter w :: s)
        (firstOctet x y :: secondOctet y z :: thirdOctet z w :: b)

section Values

variable {x y z w : Nat} (hx : x < 64) (hy : y < 64) (hz : z < 64) (hw : w < 64)

include hx hy hz hw

theorem decodeQuad_of_letters : decodeQuad (letter x) (letter y) (letter z) (letter w) =
    some [firstOctet x y, secondOctet y z, thirdOctet z w] := by
  rw [decodeQuad, value?_letter hx, value?_letter hy, value?_letter hz, value?_letter hw]
  rfl

theorem decodeLast_of_letters : decodeLast (letter x) (letter y) (letter z) (letter w) =
    some [firstOctet x y, secondOctet y z, thirdOctet z w] := by
  rw [decodeLast, value?_letter hx, value?_letter hy, value?_letter hz, value?_letter hw,
    letter_ne_pad hz, letter_ne_pad hw]
  rfl

end Values

theorem Spells.decode {s b : Bytes} (h : Spells s b) : decode s = some b := by
  induction h with
  | nil => rfl
  | one hx hy =>
      rw [Base64.decode, decodeLast, value?_letter hx, value?_letter hy]
      rfl
  | two hx hy hz =>
      rw [Base64.decode, decodeLast, value?_letter hx, value?_letter hy, value?_letter hz,
        letter_ne_pad hz]
      rfl
  | @three x y z w s b hx hy hz hw hs ih =>
      cases s with
      | nil =>
          obtain rfl : [] = b := Option.some.inj ih
          exact decodeLast_of_letters hx hy hz hw
      | cons c s =>
          rw [Base64.decode, decodeQuad_of_letters hx hy hz hw, ih]
          · rfl
          · exact nofun

theorem spells_of_decodeQuad {a b c d : UInt8} {q s t : Bytes} (h : decodeQuad a b c d = some q)
    (hs : Spells s t) : Spells (a :: b :: c :: d :: s) (q ++ t) := by
  simp only [decodeQuad, Option.bind_eq_bind, Option.bind_eq_some_iff] at h
  obtain ⟨x, hx, y, hy, z, hz, w, hw, h⟩ := h
  cases h
  obtain ⟨lx, rfl⟩ := letter_of_value? hx
  obtain ⟨ly, rfl⟩ := letter_of_value? hy
  obtain ⟨lz, rfl⟩ := letter_of_value? hz
  obtain ⟨lw, rfl⟩ := letter_of_value? hw
  exact .three lx ly lz lw hs

/-- The last quad is read by what of it is padding; a padding character in front of a letter has no value. -/
theorem spells_of_decodeLast {a b c d : UInt8} {q : Bytes} (h : decodeLast a b c d = some q) :
    Spells [a, b, c, d] q := by
  simp only [decodeLast, Option.bind_eq_bind, Option.bind_eq_some_iff] at h
  obtain ⟨x, hx, y, hy, h⟩ := h
  obtain ⟨lx, rfl⟩ := letter_of_value? hx
  obtain ⟨ly, rfl⟩ := letter_of_value? hy
  split at h
  · next hpad =>
      rw [Bool.and_eq_true, beq_iff_eq, beq_iff_eq] at hpad
      obtain ⟨rfl, rfl⟩ := hpad
      cases h
      exact .one lx ly
  rw [Option.bind_eq_some_iff] at h
  obtain ⟨z, hz, h⟩ := h
  obtain ⟨lz, rfl⟩ := letter_of_value? hz
  split at h
  · next hpad =>
      obtain rfl := beq_iff_eq.1 hpad
      cases h
      exact .two lx ly lz
  rw [Option.bind_eq_some_iff] at h
  obtain ⟨w, hw, h⟩ := h
  obtain ⟨lw, rfl⟩ := letter_of_value? hw
  cases h
  exact .three lx ly lz lw .nil

theorem decode_eq_some_iff {s b : Bytes} : decode s = some b ↔ Spells s b := by
  refine ⟨fun h => ?_, Spells.decode⟩
  induction s using decode.induct generalizing b with
  | case1 => cases h; exact .nil
  | case2 a b c d => exact spells_of_decodeLast h
  | case3 a b c d r hr ih =>
      rw [decode] at h
      · simp only [Option.bind_eq_bind, Option.bind_eq_some_iff] at h
        obtain ⟨q, hq, t, ht, h⟩ := h
        cases h
        exact spells_of_decodeQuad hq (ih ht)
      · exact hr
  | case4 s h₁ h₂ h₃ =>
      rw [decode] at h
      · exact nomatch h
      · exact h₁
      · exact h₂
      · exact h₃

/-- A text spells the octets that it was made of. -/
theorem spells_encode (s : Bytes) : Spells (encode s) s := by
  induction s using encode.induct with
  | case1 => exact .nil
  | case2 a =>
      -- what is not there counts as zero
      obtain ⟨h₁, h₂, -⟩ := split_values a 0 0
      have first := firstOctet_split a 0
      simp only [UInt8.toNat_zero, Nat.zero_div, Nat.add_zero] at h₂ first
      have spells := Spells.one h₁ h₂
      rwa [first] at spells
  | case3 a b =>
      obtain ⟨h₁, h₂, h₃, -⟩ := split_values a b 0
      have second := secondOctet_split a b 0
      simp only [UInt8.toNat_zero, Nat.zero_div, Nat.add_zero] at h₃ second
      have spells := Spells.two h₁ h₂ h₃
      rwa [firstOctet_split, second] at spells
  | case4 a b c r ih =>
      obtain ⟨h₁, h₂, h₃, h₄⟩ := split_values a b c
      have spells := Spells.three h₁ h₂ h₃ h₄ ih
      rwa [firstOctet_split, secondOctet_split, thirdOctet_split] at spells

/-- Every byte string comes back from its text. -/
theorem decode_encode (s : Bytes) : decode (encode s) = some s := (spells_encode s).decode

/-! ### Which texts decode -/

/-- A text in quads of the alphabet's characters, but for at most two characters of padding at its end. -/
def WellFormed (s : Bytes) : Prop :=
  s.length % 4 = 0 ∧
    ∃ body k, k ≤ 2 ∧ s = body ++ List.replicate k pad ∧ ∀ c ∈ body, c ∈ alphabet

theorem WellFormed.quad {a b c d : UInt8} {s : Bytes} (ha : a ∈ alphabet) (hb : b ∈ alphabet)
    (hc : c ∈ alphabet) (hd : d ∈ alphabet) (h : WellFormed s) :
    WellFormed (a :: b :: c :: d :: s) := by
  obtain ⟨hl, body, k, hk, rfl, hbody⟩ := h
  refine ⟨?_, a :: b :: c :: d :: body, k, hk, rfl, ?_⟩
  · simp only [List.length_cons]
    omega
  · simpa [ha, hb, hc, hd] using hbody

theorem Spells.wellFormed {s b : Bytes} (h : Spells s b) : WellFormed s := by
  induction h with
  | nil => exact ⟨rfl, [], 0, by decide, rfl, nofun⟩
  | @one x y hx hy =>
      exact ⟨by simp, [letter x, letter y], 2, by decide, rfl, by simp [letter_mem hx, letter_mem hy]⟩
  | @two x y z hx hy hz =>
      exact ⟨by simp, [letter x, letter y, letter z], 1, by decide, rfl,
        by simp [letter_mem hx, letter_mem hy, letter_mem hz]⟩
  | three hx hy hz hw hs ih =>
      exact ih.quad (letter_mem hx) (letter_mem hy) (letter_mem hz) (letter_mem hw)

/-- The characters in front of the padding are taken four at a time. -/
theorem spells_of_letters {k : Nat} (hk : k ≤ 2) : ∀ body : Bytes, (body.length + k) % 4 = 0 →
    (∀ c ∈ body, c ∈ alphabet) → ∃ b, Spells (body ++ List.replicate k pad) b
  | [],             hl, _ => by
      obtain rfl : k = 0 := by
        simp only [List.length_nil] at hl
        omega
      exact ⟨[], .nil⟩
  | [_],            hl, _ => by
      simp only [List.length_cons, List.length_nil] at hl
      omega
  | [a, b],         hl, h => by
      obtain rfl : k = 2 := by
        simp only [List.length_cons, List.length_nil] at hl
        omega
      obtain ⟨x, hx, rfl⟩ := mem_alphabet_iff.1 (h a (by simp))
      obtain ⟨y, hy, rfl⟩ := mem_alphabet_iff.1 (h b (by simp))
      exact ⟨_, .one hx hy⟩
  | [a, b, c],      hl, h => by
      obtain rfl : k = 1 := by
        simp only [List.length_cons, List.length_nil] at hl
        omega
      obtain ⟨x, hx, rfl⟩ := mem_alphabet_iff.1 (h a (by simp))
      obtain ⟨y, hy, rfl⟩ := mem_alphabet_iff.1 (h b (by simp))
      obtain ⟨z, hz, rfl⟩ := mem_alphabet_iff.1 (h c (by simp))
      exact ⟨_, .two hx hy hz⟩
  | a :: b :: c :: d :: body, hl, h => by
      obtain ⟨t, ht⟩ := spells_of_letters hk body
        (by simp only [List.length_cons] at hl; omega) (fun e he => h e (by simp [he]))
      obtain ⟨x, hx, rfl⟩ := mem_alphabet_iff.1 (h a (by simp))
      obtain ⟨y, hy, rfl⟩ := mem_alphabet_iff.1 (h b (by simp))
      obtain ⟨z, hz, rfl⟩ := mem_alphabet_iff.1 (h c (by simp))
      obtain ⟨w, hw, rfl⟩ := mem_alphabet_iff.1 (h d (by simp))
      exact ⟨_, .three hx hy hz hw ht⟩

theorem decode_isSome_iff (s : Bytes) : (∃ b, decode s = some b) ↔ WellFormed s := by
  constructor
  · rintro ⟨b, h⟩
    exact (decode_eq_some_iff.1 h).wellFormed
  · rintro ⟨hl, body, k, hk, rfl, hbody⟩
    rw [List.length_append, List.length_replicate] at hl
    obtain ⟨b, h⟩ := spells_of_letters hk body hl hbody
    exact ⟨b, h.decode⟩

/-! ### Lengths and spare bits -/

/-- The bits that characters spell, six each, as a number; padding spells zeros. -/
def bits (q : Bytes) : Nat := q.foldl (fun n c => n * 64 + (value? c).getD 0) 0

/-- The bits of the last quad that no octet takes, as a number.  There are eight for each character of padding. -/
def spareBits (s : Bytes) : Nat := bits (s.drop (s.length - 4)) % 256 ^ s.count pad

theorem count_letter {n : Nat} (h : n < 64) (s : Bytes) : (letter n :: s).count pad = s.count pad := by
  rw [List.count_cons, letter_ne_pad h]
  rfl

section Quads

variable {x y z w : Nat} {s b : Bytes} (hx : x < 64) (hy : y < 64) (hz : z < 64) (hw : w < 64)

include hx hy

theorem count_one : [letter x, letter y, pad, pad].count pad = 2 := by
  rw [count_letter hx, count_letter hy]
  rfl

theorem spareBits_one : spareBits [letter x, letter y, pad, pad] = 0 ↔ y % 16 = 0 := by
  have hp : value? pad = none := by decide
  rw [spareBits, count_one hx hy]
  change bits [letter x, letter y, pad, pad] % 65536 = 0 ↔ _
  simp only [bits, List.foldl_cons, List.foldl_nil, value?_letter hx, value?_letter hy, hp,
    Option.getD_some, Option.getD_none]
  omega

include hz

theorem count_two : [letter x, letter y, letter z, pad].count pad = 1 := by
  rw [count_letter hx, count_letter hy, count_letter hz]
  rfl

theorem spareBits_two : spareBits [letter x, letter y, letter z, pad] = 0 ↔ z % 4 = 0 := by
  have hp : value? pad = none := by decide
  rw [spareBits, count_two hx hy hz]
  change bits [letter x, letter y, letter z, pad] % 256 = 0 ↔ _
  simp only [bits, List.foldl_cons, List.foldl_nil, value?_letter hx, value?_letter hy,
    value?_letter hz, hp, Option.getD_some, Option.getD_none]
  omega

include hw

theorem count_three :
    (letter x :: letter y :: letter z :: letter w :: s).count pad = s.count pad := by
  rw [count_letter hx, count_letter hy, count_letter hz, count_letter hw]

/-- A quad of letters has no spare bits of its own. -/
theorem spareBits_three (hs : Spells s b) :
    spareBits (letter x :: letter y :: letter z :: letter w :: s) = spareBits s := by
  have last : s = [] ∨ ∃ n, s.length = n + 4 := by
    cases hs with
    | nil => exact .inl rfl
    | one => exact .inr ⟨0, rfl⟩
    | two => exact .inr ⟨0, rfl⟩
    | three => exact .inr ⟨_, rfl⟩
  rw [spareBits, spareBits, count_three hx hy hz hw]
  obtain rfl | ⟨n, hn⟩ := last
  · simp [Nat.mod_one]
  · simp [hn]

end Quads

/-- Four characters make three octets, less one for each character of padding. -/
theorem Spells.length {s b : Bytes} (h : Spells s b) :
    b.length + s.count pad = s.length / 4 * 3 := by
  induction h with
  | nil => rfl
  | one hx hy => simp [count_one hx hy]
  | two hx hy hz => simp [count_two hx hy hz]
  | three hx hy hz hw hs ih =>
      rw [count_three hx hy hz hw]
      simp only [List.length_cons]
      omega

/-- The text is the one that encoding makes exactly if no bit is dropped. -/
theorem Spells.encode_eq_iff {s b : Bytes} (h : Spells s b) : encode b = s ↔ spareBits s = 0 := by
  induction h with
  | nil => exact ⟨fun _ => rfl, fun _ => rfl⟩
  | @one x y hx hy =>
      rw [encode_one hx hy, spareBits_one hx hy]
      simp only [List.cons.injEq, true_and, and_true, letter_inj (show y / 16 * 16 < 64 by omega) hy]
      omega
  | @two x y z hx hy hz =>
      rw [encode_two hx hy hz, spareBits_two hx hy hz]
      simp only [List.cons.injEq, true_and, and_true, letter_inj (show z / 4 * 4 < 64 by omega) hz]
      omega
  | three hx hy hz hw hs ih =>
      rw [encode_three hx hy hz hw, spareBits_three hx hy hz hw hs]
      simp only [List.cons.injEq, true_and, ih]

/-- Decoding undoes encoding.  A text decodes exactly if it is well formed, to three octets for each quad less one for each character of padding; and encoding these makes the text again exactly if the bits of its last quad that they do not take are zero. -/
theorem texts_decode_exactly :
    (∀ b, decode (encode b) = some b) ∧
    (∀ s, (∃ b, decode s = some b) ↔ WellFormed s) ∧
    ∀ s b, decode s = some b →
      b.length + s.count pad = s.length / 4 * 3 ∧ (encode b = s ↔ spareBits s = 0) := by
  refine ⟨decode_encode, decode_isSome_iff, fun s b h => ?_⟩
  have spells := decode_eq_some_iff.1 h
  exact ⟨spells.length, spells.encode_eq_iff⟩

/-- A text that is well formed and yet not the one that encoding makes. -/
theorem texts_decode_exactly_spare :
    decode "QUJ=" = some "AB" ∧ (utf8 "AB").length + (utf8 "QUJ=").count pad = 3 ∧
      encode "AB" ≠ "QUJ=" := by
  have decoded : decode "QUJ=" = some "AB" := by decide
  obtain ⟨length, canonical⟩ := texts_decode_exactly.2.2 _ _ decoded
  exact ⟨decoded, length, fun e => absurd (canonical.1 e) (by decide)⟩

end Base64

end CilCatalog
