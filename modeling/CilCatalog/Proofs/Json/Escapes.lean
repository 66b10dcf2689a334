import CilCatalog.Proofs.Json.Reads

/-!
# Unicode escapes

A string literal is a row of parts: octets, as they are or behind a backslash, and escapes of UTF-16 code units with four digits of either case (`Spelling`).  Surrogates come in pairs, a high one and a low one right behind it.  A literal all of whose surrogates are paired stands for the octets of its parts, and any other is a fault (`takeString_spelling`); whatever else the text holds, it is refused then, since a fault is the last lexeme and the end of the input is never reached (`parse_of_fault`).

* `octets?_eq_none_iff`: octets are missing exactly if a surrogate has no partner.
* `octets?_escaped`: the code units of characters stand for their UTF-8 octets.
* `escapes_decode`: both together, of texts.
-/

namespace CilCatalog

namespace Json

/-! ### Parts of a literal -/

/-- The upper-case hexadecimal digit of a value below 16. -/
def upperDigit (n : Nat) : UInt8 := if n < 10 then (0x30 + n).toUInt8 else (0x37 + n).toUInt8

/-- A hexadecimal digit of value `n`, in either case. -/
def IsDigitOf (b : UInt8) (n : Nat) : Prop := n < 16 ∧ (b = lowerDigit n ∨ b = upperDigit n)

/-- What a string literal is made of: octets, and UTF-16 code units in escapes of their own. -/
inductive LiteralPart where
  | octet (b : UInt8)
  | unit (n : Nat)
deriving DecidableEq

/-- How the parts of a string literal are spelled between its quotes. -/
inductive Spelling : List LiteralPart → Bytes → Prop where
  | nil : Spelling [] []
  | plain {b : UInt8} {ps : List LiteralPart} {u : Bytes} (hc : ¬ b < 0x20) (hq : b ≠ octet '"')
      (hb : b ≠ octet '\\') (h : Spelling ps u) : Spelling (.octet b :: ps) (b :: u)
  | letter {b c : UInt8} {ps : List LiteralPart} {u : Bytes} (hc : simpleEscape? b = some c)
      (h : Spelling ps u) : Spelling (.octet c :: ps) (octet '\\' :: b :: u)
  | unit {a b c d : UInt8} {x y z w : Nat} {ps : List LiteralPart} {u : Bytes} (ha : IsDigitOf a x)
      (hb : IsDigitOf b y) (hc : IsDigitOf c z) (hd : IsDigitOf d w) (h : Spelling ps u) :
      Spelling (.unit (((x * 16 + y) * 16 + z) * 16 + w) :: ps)
        (octet '\\' :: octet 'u' :: a :: b :: c :: d :: u)

/-- The octets that parts stand for, unless a surrogate among them has no partner. -/
def octets? : List LiteralPart → Option Bytes
  | []                     => some []
  | .octet b :: ps         => (octets? ps).map (b :: ·)
  | .unit n :: .unit m :: ps =>
      if isHighSurrogate n then
        if isLowSurrogate m then (octets? ps).map (codePoint (pairValue n m) ++ ·) else none
      else if isLowSurrogate n then none
      else (octets? (.unit m :: ps)).map (codePoint n ++ ·)
  | .unit n :: ps          =>
      if isHighSurrogate n || isLowSurrogate n then none else (octets? ps).map (codePoint n ++ ·)

/-- Among the parts is a surrogate that belongs to no pair: a high one without a low one right behind it, or a low one without a high one right in front of it. -/
def Unpaired (ps : List LiteralPart) : Prop :=
  ∃ before n behind, ps = before ++ .unit n :: behind ∧
    (isHighSurrogate n = true ∧ (∀ m, behind.head? = some (.unit m) → isLowSurrogate m = false) ∨
      isLowSurrogate n = true ∧ ∀ m, before.getLast? = some (.unit m) → isHighSurrogate m = false)

/-! ### Surrogates -/

theorem isLowSurrogate_of_high {n : Nat} (h : isHighSurrogate n = true) : isLowSurrogate n = false := by
  simp only [isHighSurrogate, isLowSurrogate, Bool.and_eq_true, Bool.and_eq_false_iff,
    decide_eq_true_eq, decide_eq_false_iff_not] at h ⊢
  omega

theorem isHighSurrogate_of_low {n : Nat} (h : isLowSurrogate n = true) : isHighSurrogate n = false := by
  simp only [isHighSurrogate, isLowSurrogate, Bool.and_eq_true, Bool.and_eq_false_iff,
    decide_eq_true_eq, decide_eq_false_iff_not] at h ⊢
  omega

/-- A code unit that is no surrogate stands for itself, whatever is behind it. -/
theorem octets?_unit {n : Nat} (hh : isHighSurrogate n = false) (hl : isLowSurrogate n = false)
    (ps : List LiteralPart) :
    octets? (.unit n :: ps) = (octets? ps).map (codePoint n ++ ·) := by
  cases ps with
  | nil => simp [octets?, hh, hl]
  | cons p ps =>
      cases p with
      | octet b => simp [octets?, hh, hl]
      | unit m => simp [octets?, hh, hl]

theorem octets?_low {n : Nat} (hl : isLowSurrogate n = true) (ps : List LiteralPart) :
    octets? (.unit n :: ps) = none := by
  have hh := isHighSurrogate_of_low hl
  cases ps with
  | nil => simp [octets?, hl]
  | cons p ps =>
      cases p with
      | octet b => simp [octets?, hl]
      | unit m => simp [octets?, hh, hl]

/-- A high surrogate needs a low one right behind it. -/
theorem octets?_high {n : Nat} (hh : isHighSurrogate n = true) {ps : List LiteralPart}
    (h : ∀ m, ps.head? = some (.unit m) → isLowSurrogate m = false) :
    octets? (.unit n :: ps) = none := by
  cases ps with
  | nil => simp [octets?, hh]
  | cons p ps =>
      cases p with
      | octet b => simp [octets?, hh]
      | unit m => simp [octets?, hh, h m rfl]

theorem octets?_pair {n m : Nat} (hh : isHighSurrogate n = true) (hl : isLowSurrogate m = true)
    (ps : List LiteralPart) :
    octets? (.unit n :: .unit m :: ps) = (octets? ps).map (codePoint (pairValue n m) ++ ·) := by
  simp [octets?, hh, hl]

/-- The four ways in which parts begin: with nothing, with what stands for itself, with a surrogate that has no partner, and with a pair. -/
theorem parts_induction {P : List LiteralPart → Prop} (nil : P [])
    (octet : ∀ b ps, P ps → P (.octet b :: ps))
    (unit : ∀ n ps, isHighSurrogate n = false → isLowSurrogate n = false → P ps → P (.unit n :: ps))
    (low : ∀ n ps, isLowSurrogate n = true → P (.unit n :: ps))
    (high : ∀ n ps, isHighSurrogate n = true →
      (∀ m, ps.head? = some (.unit m) → isLowSurrogate m = false) → P (.unit n :: ps))
    (pair : ∀ n m ps, isHighSurrogate n = true → isLowSurrogate m = true → P ps →
      P (.unit n :: .unit m :: ps)) : ∀ ps, P ps
  | [] => nil
  | .octet b :: ps => octet b ps (parts_induction nil octet unit low high pair ps)
  | .unit n :: ps => by
      cases hl : isLowSurrogate n with
      | true => exact low n ps hl
      | false =>
      cases hh : isHighSurrogate n with
      | false => exact unit n ps hh hl (parts_induction nil octet unit low high pair ps)
      | true =>
          match ps with
          | [] => exact high n [] hh nofun
          | .octet b :: ps => exact high n _ hh nofun
          | .unit m :: ps =>
              cases hm : isLowSurrogate m with
              | true => exact pair n m ps hh hm (parts_induction nil octet unit low high pair ps)
              | false => exact high n _ hh (by rintro _ ⟨⟩; exact hm)

/-- A surrogate without a partner is the first part, or is among the others. -/
theorem unpaired_tail {p : LiteralPart} {ps : List LiteralPart} (h : Unpaired (p :: ps)) :
    (∃ n, p = .unit n ∧ (isLowSurrogate n = true ∨ isHighSurrogate n = true ∧
      ∀ m, ps.head? = some (.unit m) → isLowSurrogate m = false)) ∨ Unpaired ps := by
  obtain ⟨before, n, behind, e, h⟩ := h
  cases before with
  | nil =>
      obtain ⟨rfl, rfl⟩ := List.cons.inj e
      exact .inl ⟨n, rfl, h.symm.imp And.left id⟩
  | cons q before =>
      obtain ⟨rfl, rfl⟩ := List.cons.inj e
      refine .inr ⟨before, n, behind, rfl, h.imp id fun ⟨hl, hb⟩ => ⟨hl, fun m hm => hb m ?_⟩⟩
      rw [List.getLast?_cons, hm]
      rfl

/-- What is in front of a surrogate matters only if it is a high one. -/
theorem unpaired_cons {p : LiteralPart} {ps : List LiteralPart}
    (hp : ∀ n, p = .unit n → isHighSurrogate n = false) (h : Unpaired ps) : Unpaired (p :: ps) := by
  obtain ⟨before, n, behind, rfl, h⟩ := h
  refine ⟨p :: before, n, behind, rfl, h.imp id fun ⟨hl, hb⟩ => ⟨hl, fun m hm => ?_⟩⟩
  rw [List.getLast?_cons] at hm
  cases hlast : before.getLast? with
  | none =>
      rw [hlast] at hm
      exact hp m (Option.some.inj hm)
  | some q =>
      rw [hlast] at hm
      exact hb m (hlast.trans hm)

theorem unpaired_low {n : Nat} (hl : isLowSurrogate n = true) (ps : List LiteralPart) :
    Unpaired (.unit n :: ps) :=
  ⟨[], n, ps, rfl, .inr ⟨hl, nofun⟩⟩

theorem unpaired_high {n : Nat} (hh : isHighSurrogate n = true) {ps : List LiteralPart}
    (h : ∀ m, ps.head? = some (.unit m) → isLowSurrogate m = false) : Unpaired (.unit n :: ps) :=
  ⟨[], n, ps, rfl, .inl ⟨hh, h⟩⟩

/-- A pair in front changes nothing: neither half of it is without a partner. -/
theorem unpaired_pair {n m : Nat} (hh : isHighSurrogate n = true) (hl : isLowSurrogate m = true)
    (ps : List LiteralPart) : Unpaired (.unit n :: .unit m :: ps) ↔ Unpaired ps := by
  constructor
  · rintro ⟨before, k, behind, e, h⟩
    -- the surrogate is one half of the pair, or it is behind both
    obtain _ | ⟨_, _ | ⟨_, before⟩⟩ := before
    · cases e
      obtain ⟨-, alone⟩ | ⟨low, -⟩ := h
      · rw [alone m rfl] at hl
        exact nomatch hl
      · rw [isLowSurrogate_of_high hh] at low
        exact nomatch low
    · cases e
      obtain ⟨high, -⟩ | ⟨-, alone⟩ := h
      · rw [isHighSurrogate_of_low hl] at high
        exact nomatch high
      · rw [alone n rfl] at hh
        exact nomatch hh
    · cases e
      refine ⟨before, k, behind, rfl, h.imp id fun ⟨hk, hb⟩ => ⟨hk, fun j hj => hb j ?_⟩⟩
      rw [List.getLast?_cons, List.getLast?_cons, hj]
      rfl
  · rintro ⟨before, k, behind, rfl, h⟩
    refine ⟨.unit n :: .unit m :: before, k, behind, rfl, h.imp id fun ⟨hk, hb⟩ => ⟨hk, ?_⟩⟩
    intro j hj
    rw [List.getLast?_cons, List.getLast?_cons, Option.getD_some] at hj
    cases hlast : before.getLast? with
    | none =>
        -- right behind the pair stands its low half, which is no partner for another
        rw [hlast] at hj
        obtain rfl : m = j := by simpa using hj
        exact isHighSurrogate_of_low hl
    | some q =>
        rw [hlast] at hj
        exact hb j (hlast.trans hj)

/-- Octets are missing exactly if a surrogate has no partner. -/
theorem octets?_eq_none_iff (ps : List LiteralPart) : octets? ps = none ↔ Unpaired ps := by
  induction ps using parts_induction with
  | nil =>
      refine ⟨nofun, ?_⟩
      rintro ⟨before, n, behind, e, -⟩
      simp at e
  | octet b ps ih =>
      rw [octets?, Option.map_eq_none_iff, ih]
      refine ⟨unpaired_cons nofun, fun h => ?_⟩
      obtain ⟨n, hn, -⟩ | h := unpaired_tail h
      · exact nomatch hn
      · exact h
  | unit n ps hh hl ih =>
      rw [octets?_unit hh hl, Option.map_eq_none_iff, ih]
      refine ⟨unpaired_cons (by rintro _ ⟨⟩; exact hh), fun h => ?_⟩
      obtain ⟨m, ⟨⟩, h | ⟨h, -⟩⟩ | h := unpaired_tail h
      · rw [hl] at h; exact nomatch h
      · rw [hh] at h; exact nomatch h
      · exact h
  | low n ps hl => exact ⟨fun _ => unpaired_low hl ps, fun _ => octets?_low hl ps⟩
  | high n ps hh h => exact ⟨fun _ => unpaired_high hh h, fun _ => octets?_high hh h⟩
  | pair n m ps hh hl ih =>
      rw [octets?_pair hh hl, Option.map_eq_none_iff, ih, unpaired_pair hh hl]

/-! ### Literals -/

theorem isHexDigit_of {b : UInt8} {n : Nat} (h : IsDigitOf b n) :
    Bytes.isHexDigit b = true ∧ Bytes.hexDigitValue b = n := by
  have all : ∀ n : Fin 16,
      (Bytes.isHexDigit (lowerDigit n.val) = true ∧ Bytes.hexDigitValue (lowerDigit n.val) = n.val) ∧
        Bytes.isHexDigit (upperDigit n.val) = true ∧ Bytes.hexDigitValue (upperDigit n.val) = n.val := by
    decide
  obtain ⟨hn, rfl | rfl⟩ := h
  · exact (all ⟨n, hn⟩).1
  · exact (all ⟨n, hn⟩).2

/-- No escape of a single letter begins like a unicode escape. -/
theorem not_unicode_of_simple {b c : UInt8} (h : simpleEscape? b = some c) :
    ¬ (b == octet 'u') = true := by
  rw [beq_iff_eq]
  rintro rfl
  cases h

/-- The four digits of a unicode escape. -/
theorem takeString_unit {a b c d : UInt8} {x y z w : Nat} (ha : IsDigitOf a x) (hb : IsDigitOf b y)
    (hc : IsDigitOf c z) (hd : IsDigitOf d w) (high : Option Nat) (acc r : Bytes) :
    takeString (.hex high 3 0) acc (a :: b :: c :: d :: r) =
      match finishHex high (((x * 16 + y) * 16 + z) * 16 + w) with
      | .ok (bs, state) => takeString state (bs.reverse ++ acc) r
      | .error f        => .error (f, d :: r) := by
  obtain ⟨da, va⟩ := isHexDigit_of ha
  obtain ⟨db, vb⟩ := isHexDigit_of hb
  obtain ⟨dc, vc⟩ := isHexDigit_of hc
  obtain ⟨dd, vd⟩ := isHexDigit_of hd
  cases finished : finishHex high (((x * 16 + y) * 16 + z) * 16 + w) <;>
    rw [takeString, if_pos da, takeString, if_pos db, takeString, if_pos dc, takeString, if_pos dd,
      va, vb, vc, vd, Nat.zero_mul, Nat.zero_add, finished]

/-- What is read where octets are expected in front of the rest `r`: these octets, or an unpaired surrogate if there are none. -/
def ReadsAs (acc r : Bytes) (x : Except (LexFault × Bytes) (Bytes × Bytes)) : Option Bytes → Prop
  | some t => x = .ok (acc.reverse ++ t, r)
  | none   => ∃ rest, x = .error (.unpairedSurrogate, rest)

theorem ReadsAs.behind (bs : Bytes) {acc r : Bytes} {x : Except (LexFault × Bytes) (Bytes × Bytes)}
    {o : Option Bytes} (h : ReadsAs (bs.reverse ++ acc) r x o) : ReadsAs acc r x (o.map (bs ++ ·)) := by
  cases o with
  | none => exact h
  | some t =>
      change x = .ok (acc.reverse ++ (bs ++ t), r)
      rw [show x = _ from h, List.reverse_append, List.reverse_reverse, List.append_assoc]

/-- A high surrogate is a fault if what follows it is not an escape of a low one. -/
theorem takeString_afterHigh {ps : List LiteralPart} {u : Bytes} (hs : Spelling ps u)
    (h : ∀ m, ps.head? = some (.unit m) → isLowSurrogate m = false) (high : Nat) (acc r : Bytes) :
    ∃ rest, takeString (.afterHigh high) acc (u ++ octet '"' :: r) =
      .error (.unpairedSurrogate, rest) := by
  cases hs with
  | nil => exact ⟨_, rfl⟩
  | @plain b ps u hc hq hb hs =>
      rw [List.cons_append, takeString, if_neg (by simpa using hb)]
      exact ⟨_, rfl⟩
  | @letter b c ps u hc hs =>
      change ∃ rest, takeString (.afterHighEscape high) acc (b :: _) = _
      rw [takeString, if_neg (not_unicode_of_simple hc)]
      exact ⟨_, rfl⟩
  | unit ha hb hc hd hs =>
      simp only [List.cons_append]
      change ∃ rest, takeString (.hex (some high) 3 0) acc _ = _
      rw [takeString_unit ha hb hc hd, finishHex, h _ rfl]
      exact ⟨_, rfl⟩

/-- A literal is read as the octets that its parts stand for, up to its closing quote. -/
theorem takeString_spelling {ps : List LiteralPart} {u : Bytes} (hs : Spelling ps u)
    (acc r : Bytes) : ReadsAs acc r (takeString .plain acc (u ++ octet '"' :: r)) (octets? ps) := by
  -- by the part that comes first, two units at a time where they make a pair
  induction ps using parts_induction generalizing u acc with
  | nil =>
      cases hs
      simp [takeString, octets?, ReadsAs]
  | octet b ps ih =>
      cases hs with
      | plain hc hq hb hs =>
          have h0 : (b == 0) = false := by
            rw [beq_eq_false_iff_ne]
            rintro rfl
            exact hc (by decide)
          rw [List.cons_append, takeString, if_neg (by simpa using hq), h0, Bool.false_and,
            if_neg Bool.false_ne_true, if_neg hc, if_neg (by simpa using hb)]
          exact ReadsAs.behind [b] (ih hs (b :: acc))
      | @letter e _ _ _ hc hs =>
          simp only [List.cons_append]
          change ReadsAs acc r (takeString .escape acc (e :: _)) _
          rw [takeString, if_neg (not_unicode_of_simple hc), hc]
          exact ReadsAs.behind [b] (ih hs (b :: acc))
  | unit n ps hh hl ih =>
      cases hs with
      | unit ha hb hc hd hs =>
          rw [octets?_unit hh hl]
          simp only [List.cons_append]
          change ReadsAs acc r (takeString (.hex none 3 0) acc _) _
          rw [takeString_unit ha hb hc hd, finishHex, hh, hl]
          exact ReadsAs.behind _ (ih hs _)
  | low n ps hl =>
      have hh := isHighSurrogate_of_low hl
      cases hs with
      | unit ha hb hc hd hs =>
          rw [octets?_low hl]
          simp only [List.cons_append]
          change ReadsAs acc r (takeString (.hex none 3 0) acc _) _
          rw [takeString_unit ha hb hc hd, finishHex, hh, hl]
          exact ⟨_, rfl⟩
  | high n ps hh h =>
      cases hs with
      | unit ha hb hc hd hs =>
          rw [octets?_high hh h]
          simp only [List.cons_append]
          change ReadsAs acc r (takeString (.hex none 3 0) acc _) _
          rw [takeString_unit ha hb hc hd, finishHex, hh]
          exact takeString_afterHigh hs h _ _ r
  | pair n m ps hh hl ih =>
      cases hs with
      | unit ha hb hc hd hs =>
          cases hs with
          | unit ha' hb' hc' hd' hs =>
              rw [octets?_pair hh hl]
              simp only [List.cons_append]
              change ReadsAs acc r (takeString (.hex none 3 0) acc _) _
              rw [takeString_unit ha hb hc hd, finishHex, hh]
              change ReadsAs acc r (takeString (.hex (some _) 3 0) acc _) _
              rw [takeString_unit ha' hb' hc' hd', finishHex, hl]
              exact ReadsAs.behind _ (ih hs _)

/-! ### Characters -/

/-- The UTF-16 code units of a character. -/
def utf16 (c : Char) : List Nat :=
  if c.toNat < 0x10000 then [c.toNat]
  else [0xD800 + (c.toNat - 0x10000) / 0x400, 0xDC00 + (c.toNat - 0x10000) % 0x400]

/-- A string literal that escapes every code unit of the characters. -/
def escaped (cs : List Char) : List LiteralPart := (cs.flatMap utf16).map .unit

/-- No character is a surrogate. -/
theorem toNat_valid (c : Char) : c.toNat < 0xD800 ∨ 0xDFFF < c.toNat ∧ c.toNat < 0x110000 := c.valid

/-- The octets of a code point are those of the character. -/
theorem codePoint_toNat (c : Char) : codePoint c.toNat = String.utf8EncodeChar c := by
  have valid := toNat_valid c
  rw [String.utf8EncodeChar.eq_1]
  change codePoint c.toNat = if c.toNat ≤ 127 then [c.toNat.toUInt8]
    else if c.toNat ≤ 2047 then [(c.toNat / 64 % 32 + 192).toUInt8, (c.toNat % 64 + 128).toUInt8]
    else if c.toNat ≤ 65535 then
      [(c.toNat / 4096 % 16 + 224).toUInt8, (c.toNat / 64 % 64 + 128).toUInt8,
        (c.toNat % 64 + 128).toUInt8]
    else
      [(c.toNat / 262144 % 8 + 240).toUInt8, (c.toNat / 4096 % 64 + 128).toUInt8,
        (c.toNat / 64 % 64 + 128).toUInt8, (c.toNat % 64 + 128).toUInt8]
  generalize c.toNat = n at valid ⊢
  -- the leading octet is cut to the bits it has room for, which is where it lies anyway
  have lead₂ : n ≤ 2047 → n / 64 % 32 = n / 64 := fun h => by omega
  have lead₃ : n ≤ 65535 → n / 4096 % 16 = n / 4096 := fun h => by omega
  have lead₄ : n / 262144 % 8 = n / 262144 := by omega
  rw [codePoint]
  by_cases h₁ : n ≤ 127
  · rw [if_pos h₁, if_pos (show n < 0x80 by omega)]
  rw [if_neg h₁, if_neg (show ¬ n < 0x80 by omega)]
  by_cases h₂ : n ≤ 2047
  · rw [if_pos h₂, if_pos (show n < 0x800 by omega), lead₂ h₂, Nat.add_comm 0xC0, Nat.add_comm 0x80]
  rw [if_neg h₂, if_neg (show ¬ n < 0x800 by omega)]
  by_cases h₃ : n ≤ 65535
  · rw [if_pos h₃, if_pos (show n < 0x10000 by omega), lead₃ h₃, Nat.add_comm 0xE0,
      Nat.add_comm 0x80, Nat.add_comm 0x80]
  rw [if_neg h₃, if_neg (show ¬ n < 0x10000 by omega), lead₄, Nat.add_comm 0xF0, Nat.add_comm 0x80,
    Nat.add_comm 0x80, Nat.add_comm 0x80]

theorem utf8_cons (c : Char) (cs : List Char) :
    utf8 (String.ofList (c :: cs)) = codePoint c.toNat ++ utf8 (String.ofList cs) := by
  rw [codePoint_toNat]
  simp only [utf8, String.toByteArray_ofList, List.utf8Encode, List.toList_data_toByteArray,
    List.flatMap_cons]

theorem not_surrogate (c : Char) :
    isHighSurrogate c.toNat = false ∧ isLowSurrogate c.toNat = false := by
  have valid := toNat_valid c
  simp only [isHighSurrogate, isLowSurrogate, Bool.and_eq_false_iff, decide_eq_false_iff_not]
  omega

/-- Above the first 65536 there are two surrogates to a character. -/
theorem surrogates (c : Char) (h : ¬ c.toNat < 0x10000) :
    isHighSurrogate (0xD800 + (c.toNat - 0x10000) / 0x400) = true ∧
      isLowSurrogate (0xDC00 + (c.toNat - 0x10000) % 0x400) = true ∧
      pairValue (0xD800 + (c.toNat - 0x10000) / 0x400) (0xDC00 + (c.toNat - 0x10000) % 0x400) =
        c.toNat := by
  have valid := toNat_valid c
  generalize c.toNat = n at valid h ⊢
  refine ⟨?_, ?_, ?_⟩
  · rw [isHighSurrogate, Bool.and_eq_true, decide_eq_true_eq, decide_eq_true_eq]
    omega
  · rw [isLowSurrogate, Bool.and_eq_true, decide_eq_true_eq, decide_eq_true_eq]
    omega
  · unfold pairValue
    omega

/-- The code units of characters stand for their UTF-8 octets. -/
theorem octets?_escaped (cs : List Char) : octets? (escaped cs) = some (utf8 (String.ofList cs)) := by
  induction cs with
  | nil => rfl
  | cons c cs ih =>
      rw [utf8_cons, escaped, List.flatMap_cons, utf16, List.map_append]
      split
      · obtain ⟨hh, hl⟩ := not_surrogate c
        change octets? (.unit c.toNat :: escaped cs) = _
        rw [octets?_unit hh hl, ih]
        rfl
      · next h =>
          obtain ⟨hh, hl, value⟩ := surrogates c h
          change octets? (.unit _ :: .unit _ :: escaped cs) = _
          rw [octets?_pair hh hl, value, ih]
          rfl

/-! ### Texts -/

/-- Only the last lexeme ends the list. -/
theorem scanFrom_pairwise (fuel start : Nat) (s : Bytes) :
    (Lexeme.scanFrom fuel start s).Pairwise fun l _ => Lexeme.isLast l.kind = false := by
  induction fuel generalizing start s with
  | zero => exact .nil
  | succ fuel ih =>
      rw [Lexeme.scanFrom]
      dsimp only
      split
      · exact List.pairwise_singleton _ _
      · next h => exact List.pairwise_cons.2 ⟨fun _ _ => Bool.not_eq_true _ ▸ h, ih _ _⟩

/-- Behind a fault the end of the input is not reached. -/
theorem Parse.not_endOfInput {ls rest : List Lexeme} (h : Relation.ReflTransGen Parse.Takes ls rest)
    (hp : ls.Pairwise fun l _ => Lexeme.isLast l.kind = false) {l : Lexeme} {f : LexFault}
    (hl : l ∈ ls) (hf : l.kind = .fault f) : (Parse.look rest).kind ≠ .endOfInput := by
  induction h using Relation.ReflTransGen.head_induction_on with
  | refl =>
      intro he
      cases rest with
      | nil => exact nomatch hl
      | cons k rest =>
          have he : k.kind = .endOfInput := he
          obtain rfl | hl := List.mem_cons.1 hl
          · rw [hf] at he
            exact nomatch he
          · have hk := List.rel_of_pairwise_cons hp hl
            rw [he] at hk
            exact nomatch hk
  | head hstep _ ih =>
      obtain ⟨k, rfl, hk⟩ := hstep
      refine ih (List.pairwise_cons.1 hp).2 ?_
      obtain rfl | hl := List.mem_cons.1 hl
      · rw [hf] at hk
        exact nomatch hk
      · exact hl

/-- A text with a fault among its lexemes is refused as malformed. -/
theorem parse_of_fault {s : Bytes} {l : Lexeme} {f : LexFault} (hl : l ∈ Lexeme.scan s)
    (hf : l.kind = .fault f) : ∃ g, parse s = .error (.fault g) ∧ Fault.kind g = .invalidData := by
  have reads := parse_reads s
  cases h : parse s with
  | ok v =>
      obtain ⟨rest, hls, he⟩ := reads.result h
      exact absurd he (Parse.not_endOfInput hls.to_reflTransGen (scanFrom_pairwise _ _ _) hl hf)
  | error e =>
      obtain ⟨g, rfl, hg⟩ := reads.fault h
      exact ⟨g, rfl, hg⟩

/-- A lexeme is what is cut off the text where it begins. -/
theorem next_of_mem_scanFrom {fuel start : Nat} {s : Bytes} {l : Lexeme}
    (h : l ∈ Lexeme.scanFrom fuel start s) :
    ∃ n, l.start = start + n ∧ (Lexeme.next (s.drop n)).1 = l.kind := by
  induction fuel generalizing start s with
  | zero => exact nomatch h
  | succ fuel ih =>
      -- what is scanned next is cut off by dropping the blanks, and then the lexeme
      have body : s.drop (s.length - (s.dropWhile Bytes.isSpace).length) = s.dropWhile Bytes.isSpace :=
        (List.suffix_iff_eq_drop.1 (List.dropWhile_suffix _)).symm
      rw [Lexeme.scanFrom] at h
      cases hn : Lexeme.next (s.dropWhile Bytes.isSpace) with
      | mk k r =>
      rw [hn] at h
      dsimp only at h
      have first : ∀ {l : Lexeme} {stop : Nat},
          l = ⟨k, start + (s.length - (s.dropWhile Bytes.isSpace).length), stop⟩ →
          ∃ n, l.start = start + n ∧ (Lexeme.next (s.drop n)).1 = l.kind := by
        rintro _ _ rfl
        exact ⟨_, rfl, by rw [body, hn]⟩
      split at h
      · exact first (List.mem_singleton.1 h)
      · next hk =>
          obtain h | h := List.mem_cons.1 h
          · exact first h
          · obtain ⟨n, hn', hl⟩ := ih h
            obtain ⟨w, hw, -⟩ := Lexeme.next_cut hn (Bool.not_eq_true _ ▸ hk)
            have rest : (s.dropWhile Bytes.isSpace).drop ((s.dropWhile Bytes.isSpace).length - r.length) = r :=
              (List.suffix_iff_eq_drop.1 ⟨w, hw.symm⟩).symm
            refine ⟨_, by rw [hn', Nat.add_assoc, Nat.add_assoc], ?_⟩
            rw [← List.drop_drop, body, ← List.drop_drop, rest, hl]

/-- In the text `s`, a string literal with `u` between its quotes stands where the lexeme `l` begins. -/
def StandsAt (s : Bytes) (l : Lexeme) (u : Bytes) : Prop :=
  l ∈ Lexeme.scan s ∧ ∃ behind, s.drop l.start = octet '"' :: (u ++ octet '"' :: behind)

/-- The lexeme that a literal is: a string, or the fault of an unpaired surrogate. -/
def literalKind (ps : List LiteralPart) : LexemeKind :=
  match octets? ps with
  | some t => .string t
  | none   => .fault .unpairedSurrogate

theorem next_literal {u : Bytes} {ps : List LiteralPart} (hs : Spelling ps u) (behind : Bytes) :
    (Lexeme.next (octet '"' :: (u ++ octet '"' :: behind))).1 = literalKind ps := by
  have reads := takeString_spelling hs [] behind
  rw [Lexeme.next_quote, literalKind]
  cases ho : octets? ps with
  | some t =>
      rw [ho] at reads
      rw [show takeString _ _ _ = _ from reads]
      rfl
  | none =>
      rw [ho] at reads
      obtain ⟨rest, hr⟩ := reads
      rw [hr]

theorem kind_of_standsAt {s : Bytes} {l : Lexeme} {u : Bytes} {ps : List LiteralPart}
    (h : StandsAt s l u) (hs : Spelling ps u) : l.kind = literalKind ps := by
  obtain ⟨hl, behind, hb⟩ := h
  obtain ⟨n, hn, hk⟩ := next_of_mem_scanFrom hl
  rw [Nat.zero_add] at hn
  rw [← hk, ← hn, hb, next_literal hs]

/-- A text that is one literal is read as the octets of its parts. -/
theorem parse_literal {u t : Bytes} {ps : List LiteralPart} (hs : Spelling ps u)
    (ht : octets? ps = some t) : parse (octet '"' :: (u ++ [octet '"'])) = .ok (.string t) := by
  have reads := takeString_spelling hs [] []
  rw [ht] at reads
  have next : Lexeme.next (octet '"' :: (u ++ [octet '"']) ++ []) = (.string t, []) := by
    rw [List.append_nil, Lexeme.next_quote, show takeString _ _ _ = _ from reads]
    rfl
  have lexemes := lexemesFrom_of_next 0 (by decide) next rfl
  rw [List.append_nil] at lexemes
  have scan : Lexeme.scan (octet '"' :: (u ++ [octet '"'])) = _ := lexemes
  rw [parse, scan, bind_eq_ok]
  exact ⟨_, rfl, rfl⟩

/-- A text that is one literal with an unpaired surrogate is refused for that. -/
theorem parse_unpaired {u : Bytes} {ps : List LiteralPart} (hs : Spelling ps u)
    (hp : Unpaired ps) : parse (octet '"' :: (u ++ [octet '"'])) =
      .error (.fault (.lexical .unpairedSurrogate 0)) := by
  obtain ⟨rest, reads⟩ : ∃ rest, takeString .plain [] (u ++ [octet '"']) = _ := by
    have reads := takeString_spelling hs [] []
    rw [(octets?_eq_none_iff ps).2 hp] at reads
    exact reads
  have next : Lexeme.next (octet '"' :: (u ++ [octet '"'])) = (.fault .unpairedSurrogate, rest) := by
    rw [Lexeme.next_quote, reads]
  have scan : ∃ stop, Lexeme.scan (octet '"' :: (u ++ [octet '"'])) =
      [⟨.fault .unpairedSurrogate, 0, stop⟩] := by
    rw [Lexeme.scan, Lexeme.scanFrom, List.dropWhile_cons_of_neg (by decide), next, Nat.sub_self]
    exact ⟨_, rfl⟩
  obtain ⟨stop, scan⟩ := scan
  rw [parse, scan]
  rfl

/-- Unicode escapes are decoded to UTF-8: a literal that escapes every code unit of a row of characters, in digits of either case, is read as their octets.  A literal with a surrogate that belongs to no pair is refused for it, and so is, as malformed, any text with such a literal in it. -/
theorem escapes_decode :
    (∀ cs u, Spelling (escaped cs) u →
      parse (octet '"' :: (u ++ [octet '"'])) = .ok (.string (utf8 (String.ofList cs)))) ∧
    (∀ ps u, Spelling ps u → Unpaired ps →
      parse (octet '"' :: (u ++ [octet '"'])) = .error (.fault (.lexical .unpairedSurrogate 0))) ∧
    ∀ s l ps u, StandsAt s l u → Spelling ps u → Unpaired ps →
      ∃ f, parse s = .error (.fault f) ∧ Fault.kind f = .invalidData := by
  refine ⟨fun cs u hs => parse_literal hs (octets?_escaped cs), fun ps u => parse_unpaired, ?_⟩
  intro s l ps u hl hs hp
  have kind : l.kind = .fault .unpairedSurrogate := by
    rw [kind_of_standsAt hl hs, literalKind, (octets?_eq_none_iff ps).2 hp]
  exact parse_of_fault hl.1 kind

/-- Two characters in three escapes, and a high surrogate on its own in a list. -/
theorem escapes_decode_mixedCase :
    parse (utf8 "\"\\u00E9\\ud83D\\uDE00\"") = .ok (.string (utf8 "é😀")) ∧
      parse (utf8 "\"\\uD83dx\"") = .error (.fault (.lexical .unpairedSurrogate 0)) ∧
      ∃ f, parse (utf8 "[1,\"\\uD83dx\"]") = .error (.fault f) ∧ Fault.kind f = .invalidData := by
  have digit : ∀ (n : Nat), n < 16 → IsDigitOf (lowerDigit n) n ∧ IsDigitOf (upperDigit n) n :=
    fun n h => ⟨⟨h, .inl rfl⟩, ⟨h, .inr rfl⟩⟩
  have lower := fun n h => (digit n h).1
  have upper := fun n h => (digit n h).2
  have pair : Spelling (escaped ['é', '😀']) (utf8 "\\u00E9\\ud83D\\uDE00") :=
    .unit (lower 0 (by decide)) (lower 0 (by decide)) (upper 14 (by decide)) (lower 9 (by decide))
      (.unit (lower 13 (by decide)) (lower 8 (by decide)) (lower 3 (by decide)) (upper 13 (by decide))
        (.unit (upper 13 (by decide)) (upper 14 (by decide)) (lower 0 (by decide)) (lower 0 (by decide))
          .nil))
  have lone : Spelling [.unit 0xD83D, .octet 0x78] (utf8 "\\uD83dx") :=
    .unit (upper 13 (by decide)) (lower 8 (by decide)) (lower 3 (by decide)) (lower 13 (by decide))
      (.plain (by decide) (by decide) (by decide) .nil)
  have unpaired : Unpaired [.unit 0xD83D, .octet 0x78] := unpaired_high (by decide) nofun
  have stands : StandsAt (utf8 "[1,\"\\uD83dx\"]") ⟨.fault .unpairedSurrogate, 3, 10⟩ (utf8 "\\uD83dx") :=
    ⟨by decide, utf8 "]", by decide⟩
  exact ⟨escapes_decode.1 _ _ pair, escapes_decode.2.1 _ _ lone unpaired,
    escapes_decode.2.2 _ _ _ _ stands lone unpaired⟩

end Json

end CilCatalog
