import CilCatalog.Json.Emit
import CilCatalog.Json.Lexeme
import CilCatalog.Proofs.Decimal
import Mathlib.Logic.Basic

/-!
# Lexemes of written JSON

`LexemeKind.Written k u` says that the octets `u` are how a lexeme of kind `k` is written.  A text that begins with one is cut behind it, if what follows continues neither a number nor a word (`lexemesFrom_append`), and blanks in front are dropped (`lexemesFrom_blanks`).  String literals are the part with an argument: reading undoes one escape at a time (`takeString_escape`).

Of any other text, what a lexeme takes depends on it and on what stops it (`Lexeme.next_cut`).
-/

namespace CilCatalog

namespace Json

/-- How a lexeme is written. -/
inductive LexemeKind.Written : LexemeKind → Bytes → Prop where
  | openBrace : Written .openBrace [octet '\x7b']
  | closeBrace : Written .closeBrace [octet '\x7d']
  | openBracket : Written .openBracket [octet '[']
  | closeBracket : Written .closeBracket [octet ']']
  | colon : Written .colon [octet ':']
  | comma : Written .comma [octet ',']
  | string (s : Bytes) : Written (.string s) (quote s)
  | integer (i : Int64) : Written (.integer i) (Bytes.signedDecimal i.toInt)
  | true : Written .true "true"
  | false : Written .false "false"
  | null : Written .null "null"

/-- An octet that may run on behind a number or a word. -/
def runsOn (b : UInt8) : Bool := Bytes.isLetter b || Bytes.isDigit b || b == octet '.'

/-- A lexeme of this kind ends in front of what follows. -/
def EndsBefore : LexemeKind → Bytes → Prop
  | .integer _, r | .true, r | .false, r | .null, r => ∀ b ∈ r.head?, runsOn b = false
  | _,          _ => True

/-! ### String literals -/

/-- The lower-case hexadecimal digit of a value below 16. -/
def lowerDigit (n : Nat) : UInt8 := if n < 10 then (0x30 + n).toUInt8 else (0x57 + n).toUInt8

/-- A control octet is escaped by two digits, and these give its number back. -/
theorem controlDigits : ∀ n : Fin 32,
    (if n.val.toUInt8 < 0x10 then [octet '0'] else []) ++ Bytes.hexadecimal n.val =
        [lowerDigit (n.val / 16), lowerDigit (n.val % 16)] ∧
      Bytes.isHexDigit (lowerDigit (n.val / 16)) = true ∧
      Bytes.isHexDigit (lowerDigit (n.val % 16)) = true ∧
      Bytes.hexDigitValue (lowerDigit (n.val / 16)) * 16 +
        Bytes.hexDigitValue (lowerDigit (n.val % 16)) = n.val := by
  decide

/-- The last two digits of an escape that began with two zeros. -/
theorem takeString_hex {acc r : Bytes} {x y : UInt8} (hx : Bytes.isHexDigit x = true)
    (hy : Bytes.isHexDigit y = true)
    (hn : Bytes.hexDigitValue x * 16 + Bytes.hexDigitValue y < 0x80) :
    takeString (.hex none 3 0) acc (octet '0' :: octet '0' :: x :: y :: r) =
      takeString .plain ((Bytes.hexDigitValue x * 16 + Bytes.hexDigitValue y).toUInt8 :: acc) r := by
  have h0 : Bytes.isHexDigit (octet '0') = true := by decide
  have hv : Bytes.hexDigitValue (octet '0') = 0 := by decide
  rw [takeString, if_pos h0, takeString, if_pos h0, takeString, if_pos hx, takeString, if_pos hy]
  simp only [hv, Nat.zero_mul, Nat.zero_add]
  generalize Bytes.hexDigitValue x * 16 + Bytes.hexDigitValue y = n at hn
  have high : isHighSurrogate n = false := by
    simp only [isHighSurrogate, Bool.and_eq_false_iff, decide_eq_false_iff_not]
    omega
  have low : isLowSurrogate n = false := by
    simp only [isLowSurrogate, Bool.and_eq_false_iff, decide_eq_false_iff_not]
    omega
  simp only [finishHex, high, low, Bool.false_eq_true, if_false, codePoint, hn, if_true,
    List.reverse_singleton, List.singleton_append]

/-- An escaped octet is read back. -/
theorem takeString_escape (acc : Bytes) (b : UInt8) (r : Bytes) :
    takeString .plain acc (escape b ++ r) = takeString .plain (b :: acc) r := by
  unfold escape
  split
  · next h => rw [beq_iff_eq.1 h]; rfl
  split
  · next h => rw [beq_iff_eq.1 h]; rfl
  split
  · next h => rw [beq_iff_eq.1 h]; rfl
  split
  · next h => rw [beq_iff_eq.1 h]; rfl
  split
  · next h => rw [beq_iff_eq.1 h]; rfl
  split
  · next h => rw [beq_iff_eq.1 h]; rfl
  split
  · next h => rw [beq_iff_eq.1 h]; rfl
  split
  · next h =>
      -- the remaining control octets go by their numbers
      have hb : b.toNat < 32 := UInt8.lt_iff_toNat_lt.1 h
      obtain ⟨hd, hx, hy, hv⟩ := controlDigits ⟨b.toNat, hb⟩
      have hb' : b.toNat.toUInt8 = b := UInt8.ofNat_toNat
      rw [hb'] at hd
      have e : utf8 "\\u00" = [octet '\\', octet 'u', octet '0', octet '0'] := by decide
      have digits : (if b < 0x10 then [octet '0'] else []) ++ (Bytes.hexadecimal b.toNat ++ r) =
          lowerDigit (b.toNat / 16) :: lowerDigit (b.toNat % 16) :: r := by
        rw [← List.append_assoc, hd]
        rfl
      rw [e, List.append_assoc, List.append_assoc, digits]
      change takeString (.hex none 3 0) acc (octet '0' :: octet '0' :: _ :: _ :: r) = _
      rw [takeString_hex hx hy (by omega), hv, hb']
  · next hq hs _ _ _ _ _ hc =>
      have h0 : (b == 0) = false := by
        rw [beq_eq_false_iff_ne]
        rintro rfl
        exact hc (by decide)
      rw [List.singleton_append, takeString, if_neg hq, h0, Bool.false_and,
        if_neg Bool.false_ne_true, if_neg hc, if_neg hs]

/-- A written string literal is read back up to its closing quote. -/
theorem takeString_quote (s acc r : Bytes) :
    takeString .plain acc (s.flatMap escape ++ octet '"' :: r) = .ok (acc.reverse ++ s, r) := by
  induction s generalizing acc with
  | nil => simp [takeString]
  | cons b s ih =>
      rw [List.flatMap_cons, List.append_assoc, takeString_escape, ih, List.reverse_cons,
        List.append_assoc]
      rfl

/-! ### Integers -/

theorem integerValue?_eq_some {negative : Bool} {ds : Bytes} {v : Int64} (hds : ds ≠ [])
    (hv : v.toInt = if negative then -(Bytes.digitsValue ds : Int) else Bytes.digitsValue ds) :
    integerValue? negative ds = some v := by
  have lo := v.le_toInt
  have hi := v.toInt_lt
  have hds' : ds.isEmpty = false := by simpa using hds
  cases negative with
  | false =>
      simp only [Bool.false_eq_true, if_false] at hv
      simp only [integerValue?, hds', Bool.false_eq_true, if_false]
      rw [if_pos (by omega), ← hv, Int64.ofInt_toInt]
  | true =>
      simp only [if_true] at hv
      simp only [integerValue?, hds', Bool.false_eq_true, if_false, if_true]
      rw [if_pos (by omega), ← hv, Int64.ofInt_toInt]

theorem runsOn_digit {r : Bytes} (hr : ∀ b ∈ r.head?, runsOn b = false) :
    ∀ b ∈ r.head?, Bytes.isDigit b = false := by
  intro b hb
  have h := hr b hb
  simp only [runsOn, Bool.or_eq_false_iff] at h
  exact h.1.2

theorem runsOn_letter {r : Bytes} (hr : ∀ b ∈ r.head?, runsOn b = false) :
    ∀ b ∈ r.head?, Bytes.isLetter b = false := by
  intro b hb
  have h := hr b hb
  simp only [runsOn, Bool.or_eq_false_iff] at h
  exact h.1.1

/-- Neither a fraction nor an exponent begins there. -/
theorem runsOn_number {r : Bytes} (hr : ∀ b ∈ r.head?, runsOn b = false) :
    r.head?.any continuesNumber = false := by
  cases r with
  | nil => rfl
  | cons b r =>
      have h := hr b rfl
      simp only [runsOn, Bool.or_eq_false_iff] at h
      obtain ⟨⟨hl, -⟩, hp⟩ := h
      have letter : ∀ c, Bytes.isLetter c = true → (b == c) = false := by
        intro c hc
        rw [beq_eq_false_iff_ne]
        rintro rfl
        rw [hc] at hl
        exact nomatch hl
      simp only [List.head?_cons, Option.any_some, continuesNumber, hp, letter (octet 'e') (by decide),
        letter (octet 'E') (by decide), Bool.or_self]

/-- What is taken for a number is one or a fault. -/
theorem takeInteger_kind (s : Bytes) :
    (∃ v, (takeInteger s).1 = .integer v) ∨ ∃ f, (takeInteger s).1 = .fault f := by
  unfold takeInteger
  extract_lets negative body ds rest
  split
  · exact .inr ⟨_, rfl⟩
  split
  · exact .inl ⟨_, rfl⟩
  · exact .inr ⟨_, rfl⟩

theorem takeInteger_signedDecimal {r : Bytes} (i : Int64) (hr : ∀ b ∈ r.head?, runsOn b = false) :
    takeInteger (Bytes.signedDecimal i.toInt ++ r) = (.integer i, r) := by
  have hd := runsOn_digit hr
  have hn := runsOn_number hr
  generalize hi : i.toInt = n
  have h := Bytes.numeral_signedDecimal n
  generalize Bytes.signedDecimal n = u at h
  cases h with
  | plain h =>
      have hneg : ((u ++ r).head? == some (octet '-')) = false := by
        obtain ⟨b, ds, rfl⟩ := List.exists_cons_of_ne_nil h.1
        rw [List.cons_append, List.head?_cons, beq_eq_false_iff_ne]
        rintro ⟨⟩
        exact absurd (h.2 _ List.mem_cons_self) (by decide)
      have hv : integerValue? false u = some i := integerValue?_eq_some h.1 hi
      simp only [takeInteger, hneg, Bool.false_eq_true, if_false,
        Bytes.takeWhile_append_of_head h.2 hd, Bytes.dropWhile_append_of_head h.2 hd, hn, hv]
  | @minus ds h =>
      have hneg : ((octet '-' :: (ds ++ r)).head? == some (octet '-')) = true := by simp
      have hv : integerValue? true ds = some i := integerValue?_eq_some h.1 hi
      rw [List.cons_append]
      simp only [takeInteger, hneg, if_true, List.tail_cons,
        Bytes.takeWhile_append_of_head h.2 hd, Bytes.dropWhile_append_of_head h.2 hd, hn, hv,
        Bool.false_eq_true, if_false]

namespace Lexeme

/-! ### One lexeme -/

theorem atEnd_cons {b : UInt8} {r : Bytes} (h : (b == 0) = false) : atEnd (b :: r) = false := by
  cases r with
  | nil => exact h
  | cons => rfl

/-- Only the end of the input and a zero octet in front of it count as the end. -/
theorem atEnd_iff {s : Bytes} : atEnd s = true ↔ s = [] ∨ s = [0] := by
  match s with
  | []         => simp [atEnd]
  | [b]        => simp [atEnd]
  | b :: c :: r => simp [atEnd]

/-- A word of the language, up to what is no letter. -/
theorem next_word {b : UInt8} {w r : Bytes} (hw : ∀ c ∈ b :: w, Bytes.isLetter c = true)
    (hr : ∀ c ∈ r.head?, Bytes.isLetter c = false) :
    next (b :: w ++ r) = (literal (b :: w), r) := by
  have hb := hw b List.mem_cons_self
  have other : ∀ c, Bytes.isLetter c = false → ¬ (b == c) = true := by
    intro c hc h
    rw [← beq_iff_eq.1 h, hb] at hc
    exact nomatch hc
  have hd : Bytes.isDigit b = false := by
    simp only [Bytes.isLetter, Bool.or_eq_true, Bool.and_eq_true, decide_eq_true_eq,
      UInt8.le_iff_toNat_le] at hb
    simp only [Bytes.isDigit, Bool.and_eq_false_iff, decide_eq_false_iff_not, UInt8.le_iff_toNat_le]
    simp only [UInt8.toNat_ofNat] at *
    omega
  have hn : ¬ (b == octet '-' || Bytes.isDigit b) = true := by
    rw [hd, Bool.or_false]
    exact other (octet '-') rfl
  rw [List.cons_append, next, atEnd_cons (Bool.eq_false_iff.2 (other 0 rfl)),
    if_neg Bool.false_ne_true]
  rw [if_neg (other 0 rfl), if_neg (other (octet '\x7b') rfl), if_neg (other (octet '\x7d') rfl),
    if_neg (other (octet '[') rfl), if_neg (other (octet ']') rfl), if_neg (other (octet ':') rfl),
    if_neg (other (octet ',') rfl), if_neg (other (octet '"') rfl), if_neg hn, if_pos hb]
  rw [← List.cons_append, Bytes.takeWhile_append_of_head hw hr, Bytes.dropWhile_append_of_head hw hr]

theorem next_quote (s : Bytes) : next (octet '"' :: s) =
    match takeString .plain [] s with
    | .ok (t, rest)    => (.string t, rest)
    | .error (f, rest) => (.fault f, rest) := by
  rw [next, atEnd_cons rfl]
  rfl

theorem next_number {b : UInt8} {s : Bytes} (hb : (b == octet '-' || Bytes.isDigit b) = true) :
    next (b :: s) = takeInteger (b :: s) := by
  have other : ∀ c, c ≠ octet '-' → Bytes.isDigit c = false → ¬ (b == c) = true := by
    intro c hc hd h
    obtain rfl := beq_iff_eq.1 h
    rw [Bool.or_eq_true, beq_iff_eq, hd] at hb
    exact hb.elim hc nofun
  rw [next, atEnd_cons (Bool.eq_false_iff.2 (other 0 (by decide) rfl)), if_neg Bool.false_ne_true]
  rw [if_neg (other 0 (by decide) rfl), if_neg (other (octet '\x7b') (by decide) rfl),
    if_neg (other (octet '\x7d') (by decide) rfl), if_neg (other (octet '[') (by decide) rfl),
    if_neg (other (octet ']') (by decide) rfl), if_neg (other (octet ':') (by decide) rfl),
    if_neg (other (octet ',') (by decide) rfl), if_neg (other (octet '"') (by decide) rfl),
    if_pos hb]

/-- A written lexeme is cut off where it ends. -/
theorem next_append {k : LexemeKind} {u r : Bytes} (h : k.Written u) (hr : EndsBefore k r) :
    next (u ++ r) = (k, r) := by
  cases h with
  | openBrace => cases r <;> rfl
  | closeBrace => cases r <;> rfl
  | openBracket => cases r <;> rfl
  | closeBracket => cases r <;> rfl
  | colon => cases r <;> rfl
  | comma => cases r <;> rfl
  | string s =>
      have e : quote s ++ r = octet '"' :: (s.flatMap escape ++ octet '"' :: r) := by simp [quote]
      have h := takeString_quote s [] r
      rw [List.reverse_nil, List.nil_append] at h
      rw [e, next_quote, h]
  | integer i =>
      have hi := takeInteger_signedDecimal i hr
      obtain ⟨b, t, hu, hb⟩ := (Bytes.numeral_signedDecimal i.toInt).head
      rw [hu, List.cons_append] at hi ⊢
      rw [next_number (by simpa using hb), hi]
  | «true» => exact next_word (b := octet 't') (w := utf8 "rue") (by decide +kernel) (runsOn_letter hr)
  | «false» => exact next_word (b := octet 'f') (w := utf8 "alse") (by decide +kernel) (runsOn_letter hr)
  | null => exact next_word (b := octet 'n') (w := utf8 "ull") (by decide +kernel) (runsOn_letter hr)

end Lexeme

/-! ### All lexemes -/

/-- A written lexeme begins with no blank and ends no list. -/
theorem head_of_written {k : LexemeKind} {u : Bytes} (h : k.Written u) :
    ∃ b t, u = b :: t ∧ Bytes.isSpace b = false := by
  cases h with
  | string s => exact ⟨_, _, rfl, rfl⟩
  | integer i =>
      obtain ⟨b, t, hu, hb⟩ := (Bytes.numeral_signedDecimal i.toInt).head
      refine ⟨b, t, hu, ?_⟩
      obtain rfl | hb := hb
      · rfl
      · simp only [Bytes.isDigit, Bool.and_eq_true, decide_eq_true_eq, UInt8.le_iff_toNat_le] at hb
        simp only [Bytes.isSpace, Bool.or_eq_false_iff, beq_eq_false_iff_ne, ne_eq,
          Bool.and_eq_false_iff, decide_eq_false_iff_not, UInt8.le_iff_toNat_le,
          ← UInt8.toNat_inj]
        simp only [UInt8.toNat_ofNat] at *
        omega
  | _ => exact ⟨_, _, rfl, by decide⟩

theorem isLast_of_written {k : LexemeKind} {u : Bytes} (h : k.Written u) :
    Lexeme.isLast k = false := by
  cases h <;> rfl

/-! ### Where a lexeme ends -/

/-- What stops in front of `r` stops in front of `r'` too, which begins with the same octet or with a zero octet, or is empty. -/
def StopsLike (r r' : Bytes) : Prop := ∀ b ∈ r'.head?, b ∈ r.head? ∨ b = 0

theorem StopsLike.refl (r : Bytes) : StopsLike r r := fun _ hb => .inl hb

theorem StopsLike.head {r r' : Bytes} {p : UInt8 → Bool} (h : StopsLike r r')
    (hr : ∀ b ∈ r.head?, p b = false) (h0 : p 0 = false) : ∀ b ∈ r'.head?, p b = false := by
  intro b hb
  obtain hb | rfl := h b hb
  · exact hr b hb
  · exact h0

/-- One octet of a literal that is read to its closing quote: it is no zero, and it closes the literal or leads to another state, whatever is behind it. -/
theorem takeString_cons {state : LiteralState} {acc s t r : Bytes} {b : UInt8}
    (h : takeString state acc (b :: s) = .ok (t, r)) :
    b ≠ 0 ∧ ((r = s ∧ ∀ s', takeString state acc (b :: s') = .ok (t, s')) ∨
      ∃ state' acc', ∀ s', takeString state acc (b :: s') = takeString state' acc' s') := by
  -- an octet ends the literal, or leads to a state that does not depend on what follows
  cases state with
  | plain =>
      rw [takeString] at h
      split at h
      · next hb =>
          cases h
          refine ⟨?_, .inl ⟨rfl, fun s' => by rw [takeString, if_pos hb]⟩⟩
          rintro rfl
          exact absurd hb (by decide)
      next hq =>
      split at h
      · exact nomatch h
      split at h
      · exact nomatch h
      next hc =>
      have h0 : b ≠ 0 := by rintro rfl; exact hc (by decide)
      have hz : ∀ s' : Bytes, (b == 0 && s'.isEmpty) = false := fun s' => by simp [h0]
      refine ⟨h0, .inr ?_⟩
      split at h
      · next hs =>
          exact ⟨.escape, acc, fun s' => by
            rw [takeString, if_neg hq, hz, if_neg Bool.false_ne_true, if_neg hc, if_pos hs]⟩
      · next hs =>
          exact ⟨.plain, b :: acc, fun s' => by
            rw [takeString, if_neg hq, hz, if_neg Bool.false_ne_true, if_neg hc, if_neg hs]⟩
  | escape =>
      rw [takeString] at h
      split at h
      · next hb =>
          refine ⟨?_, .inr ⟨_, _, fun s' => by rw [takeString, if_pos hb]⟩⟩
          rintro rfl
          exact absurd hb (by decide)
      next hu =>
      split at h
      · next c hc =>
          refine ⟨?_, .inr ⟨.plain, c :: acc, fun s' => by rw [takeString, if_neg hu, hc]⟩⟩
          rintro rfl
          exact nomatch hc
      · exact nomatch h
  | hex high left n =>
      have h0 : ∀ {b : UInt8}, Bytes.isHexDigit b = true → b ≠ 0 := by
        rintro b hb rfl
        exact absurd hb (by decide)
      cases left with
      | succ left =>
          rw [takeString] at h
          split at h
          · next hb => exact ⟨h0 hb, .inr ⟨_, _, fun s' => by rw [takeString, if_pos hb]⟩⟩
          · exact nomatch h
      | zero =>
          rw [takeString] at h
          split at h
          · next hb =>
              split at h
              · next bs state hd =>
                  exact ⟨h0 hb, .inr ⟨_, _, fun s' => by rw [takeString, if_pos hb, hd]⟩⟩
              · exact nomatch h
          · exact nomatch h
  | afterHigh high =>
      rw [takeString] at h
      split at h
      · next hb =>
          refine ⟨?_, .inr ⟨_, _, fun s' => by rw [takeString, if_pos hb]⟩⟩
          rintro rfl
          exact absurd hb (by decide)
      · exact nomatch h
  | afterHighEscape high =>
      rw [takeString] at h
      split at h
      · next hb =>
          refine ⟨?_, .inr ⟨_, _, fun s' => by rw [takeString, if_pos hb]⟩⟩
          rintro rfl
          exact absurd hb (by decide)
      · exact nomatch h

/-- A literal is read to its closing quote whatever follows that, and no octet of it is a zero. -/
theorem takeString_eq_ok {state : LiteralState} {acc s t r : Bytes}
    (h : takeString state acc s = .ok (t, r)) :
    ∃ w, s = w ++ r ∧ w ≠ [] ∧ 0 ∉ w ∧ ∀ r', takeString state acc (w ++ r') = .ok (t, r') := by
  induction s generalizing state acc with
  | nil => cases state <;> exact nomatch h
  | cons b s ih =>
      obtain ⟨hb, ⟨rfl, hr⟩ | ⟨state', acc', hr⟩⟩ := takeString_cons h
      · exact ⟨[b], rfl, List.cons_ne_nil _ _, by simpa using hb.symm, hr⟩
      · rw [hr] at h
        obtain ⟨w, rfl, -, hw, h⟩ := ih h
        refine ⟨b :: w, rfl, List.cons_ne_nil _ _, ?_, fun r' => (hr _).trans (h r')⟩
        rw [List.mem_cons, not_or]
        exact ⟨hb.symm, hw⟩

/-- A number whose digits are `body` up to the first octet that is none. -/
def integerBehind (negative : Bool) (body : Bytes) : LexemeKind × Bytes :=
  let digits := body.takeWhile Bytes.isDigit
  let rest := body.dropWhile Bytes.isDigit
  if rest.head?.any continuesNumber then (.fault .notIntegral, rest)
  else match integerValue? negative digits with
    | some v => (.integer v, rest)
    | none   => (.fault (.badInteger (if negative then octet '-' :: digits else digits)), rest)

theorem takeInteger_minus (s : Bytes) : takeInteger (octet '-' :: s) = integerBehind true s := rfl

theorem takeInteger_plain {s : Bytes} (h : ∀ b ∈ s.head?, b ≠ octet '-') :
    takeInteger s = integerBehind false s := by
  have hneg : (s.head? == some (octet '-')) = false := by
    cases s with
    | nil => rfl
    | cons b s => simpa using h b rfl
  rw [takeInteger, hneg]
  rfl

theorem any_eq_false_iff {p : UInt8 → Bool} {r : Bytes} :
    r.head?.any p = false ↔ ∀ b ∈ r.head?, p b = false := by
  cases r <;> simp

/-- The digits of a number are the same in front of whatever stops them. -/
theorem integerBehind_eq_integer {negative : Bool} {s r : Bytes} {v : Int64}
    (h : integerBehind negative s = (.integer v, r)) :
    ∃ ds, s = ds ++ r ∧ Bytes.IsDigits ds ∧
      ∀ r', StopsLike r r' → integerBehind negative (ds ++ r') = (.integer v, r') := by
  have hds : ∀ b ∈ s.takeWhile Bytes.isDigit, Bytes.isDigit b = true :=
    List.all_eq_true.1 List.all_takeWhile
  simp only [integerBehind] at h
  split at h
  · exact nomatch h
  next hc =>
  split at h
  · next w hv =>
      cases h
      refine ⟨_, List.takeWhile_append_dropWhile.symm, ⟨fun he => ?_, hds⟩, fun r' hr' => ?_⟩
      · rw [he] at hv
        exact nomatch hv
      · have hr : ∀ b ∈ r'.head?, Bytes.isDigit b = false := hr'.head Bytes.head?_dropWhile_not rfl
        have hn : r'.head?.any continuesNumber = false :=
          any_eq_false_iff.2 (hr'.head (any_eq_false_iff.1 (Bool.not_eq_true _ ▸ hc)) rfl)
        simp only [integerBehind, Bytes.takeWhile_append_of_head hds hr,
          Bytes.dropWhile_append_of_head hds hr, hn, hv, Bool.false_eq_true, if_false]
  · exact nomatch h

theorem takeInteger_eq_integer {s r : Bytes} {v : Int64} (h : takeInteger s = (.integer v, r)) :
    ∃ w, s = w ++ r ∧ (∃ b u, w = b :: u ∧ (b == octet '-' || Bytes.isDigit b) = true) ∧ 0 ∉ w ∧
      ∀ r', StopsLike r r' → takeInteger (w ++ r') = (.integer v, r') := by
  have nonzero : ∀ {ds : Bytes}, Bytes.IsDigits ds → 0 ∉ ds := fun hd h0 =>
    absurd (hd.2 0 h0) (by decide)
  by_cases hm : ∃ t, s = octet '-' :: t
  · obtain ⟨t, rfl⟩ := hm
    rw [takeInteger_minus] at h
    obtain ⟨ds, rfl, hd, h⟩ := integerBehind_eq_integer h
    refine ⟨octet '-' :: ds, rfl, ⟨_, _, rfl, rfl⟩, ?_, h⟩
    rw [List.mem_cons, not_or]
    exact ⟨by decide, nonzero hd⟩
  · rw [takeInteger_plain] at h
    · obtain ⟨ds, rfl, hd, h⟩ := integerBehind_eq_integer h
      obtain ⟨b, u, rfl⟩ := List.exists_cons_of_ne_nil hd.1
      have hb := hd.2 b List.mem_cons_self
      refine ⟨b :: u, rfl, ⟨b, u, rfl, by rw [hb, Bool.or_true]⟩, nonzero hd, fun r' hr' => ?_⟩
      rw [takeInteger_plain, h r' hr']
      rintro _ ⟨⟩ rfl
      exact absurd hb (by decide)
    · rintro b hb rfl
      exact hm (List.head?_eq_some_iff.1 hb)

namespace Lexeme

/-- Cutting a lexeme that does not end the list takes octets that are no zeros, and takes the same ones in front of whatever stops it. -/
theorem next_cut {s r : Bytes} {k : LexemeKind} (h : next s = (k, r)) (hk : isLast k = false) :
    ∃ w, s = w ++ r ∧ w ≠ [] ∧ 0 ∉ w ∧ ∀ r', StopsLike r r' → next (w ++ r') = (k, r') := by
  cases s with
  | nil => cases h; exact nomatch hk
  | cons b t =>
      -- the six signs are one octet each and end wherever they stand
      have sign : ∀ {k : LexemeKind}, k.Written [b] → (∀ r', EndsBefore k r') → b ≠ 0 →
          ∃ w, b :: t = w ++ t ∧ w ≠ [] ∧ 0 ∉ w ∧ ∀ r', StopsLike t r' → next (w ++ r') = (k, r') :=
        fun hw hr h0 => ⟨[b], rfl, List.cons_ne_nil _ _, by simpa using h0.symm,
          fun r' _ => next_append hw (hr r')⟩
      rw [next] at h
      obtain ⟨-, h⟩ | ⟨-, h⟩ := ite_eq_iff.1 h
      · cases h; exact nomatch hk
      obtain ⟨-, h⟩ | ⟨-, h⟩ := ite_eq_iff.1 h
      · cases h; exact nomatch hk
      obtain ⟨hb, h⟩ | ⟨-, h⟩ := ite_eq_iff.1 h
      · cases beq_iff_eq.1 hb; cases h; exact sign .openBrace (fun _ => trivial) (by decide)
      obtain ⟨hb, h⟩ | ⟨-, h⟩ := ite_eq_iff.1 h
      · cases beq_iff_eq.1 hb; cases h; exact sign .closeBrace (fun _ => trivial) (by decide)
      obtain ⟨hb, h⟩ | ⟨-, h⟩ := ite_eq_iff.1 h
      · cases beq_iff_eq.1 hb; cases h; exact sign .openBracket (fun _ => trivial) (by decide)
      obtain ⟨hb, h⟩ | ⟨-, h⟩ := ite_eq_iff.1 h
      · cases beq_iff_eq.1 hb; cases h; exact sign .closeBracket (fun _ => trivial) (by decide)
      obtain ⟨hb, h⟩ | ⟨-, h⟩ := ite_eq_iff.1 h
      · cases beq_iff_eq.1 hb; cases h; exact sign .colon (fun _ => trivial) (by decide)
      obtain ⟨hb, h⟩ | ⟨-, h⟩ := ite_eq_iff.1 h
      · cases beq_iff_eq.1 hb; cases h; exact sign .comma (fun _ => trivial) (by decide)
      obtain ⟨hb, h⟩ | ⟨-, h⟩ := ite_eq_iff.1 h
      · cases beq_iff_eq.1 hb
        cases ht : takeString .plain [] t with
        | ok v =>
            rw [ht] at h
            cases h
            obtain ⟨w, rfl, -, hw, hr⟩ := takeString_eq_ok ht
            refine ⟨octet '"' :: w, rfl, List.cons_ne_nil _ _, ?_, fun r' _ => ?_⟩
            · rw [List.mem_cons, not_or]
              exact ⟨by decide, hw⟩
            · rw [List.cons_append, next_quote, hr]
        | error f =>
            rw [ht] at h
            cases h
            exact nomatch hk
      obtain ⟨hb, h⟩ | ⟨-, h⟩ := ite_eq_iff.1 h
      · obtain ⟨v, rfl⟩ : ∃ v, k = .integer v := by
          obtain ⟨v, hv⟩ | ⟨f, hf⟩ := takeInteger_kind (b :: t)
          · exact ⟨v, by rw [← hv, h]⟩
          · rw [h] at hf
            cases hf
            exact nomatch hk
        obtain ⟨w, hs, ⟨c, u, rfl, hc⟩, hw, hr⟩ := takeInteger_eq_integer h
        refine ⟨c :: u, hs, List.cons_ne_nil _ _, hw, fun r' hr' => ?_⟩
        rw [List.cons_append, next_number hc, ← List.cons_append, hr r' hr']
      obtain ⟨hb, h⟩ | ⟨-, h⟩ := ite_eq_iff.1 h
      · cases h
        refine ⟨(b :: t).takeWhile Bytes.isLetter, List.takeWhile_append_dropWhile.symm, ?_, ?_,
          fun r' hr' => ?_⟩
        · rw [List.takeWhile_cons_of_pos hb]
          exact List.cons_ne_nil _ _
        · exact fun h0 => absurd (List.all_eq_true.1 List.all_takeWhile 0 h0) (by decide)
        · have hl : ∀ c ∈ (b :: t).takeWhile Bytes.isLetter, Bytes.isLetter c = true :=
            List.all_eq_true.1 List.all_takeWhile
          rw [List.takeWhile_cons_of_pos hb] at hl ⊢
          exact next_word hl (hr'.head Bytes.head?_dropWhile_not rfl)
      · cases h; exact nomatch hk

theorem atEnd_of_next {s r : Bytes} (h : next s = (.endOfInput, r)) : atEnd s = true := by
  cases s with
  | nil => rfl
  | cons b t =>
  rw [next] at h
  obtain ⟨hb, -⟩ | ⟨-, h⟩ := ite_eq_iff.1 h
  · exact hb
  iterate 7
    obtain ⟨-, h⟩ | ⟨-, h⟩ := ite_eq_iff.1 h
    · exact nomatch h
  obtain ⟨-, h⟩ | ⟨-, h⟩ := ite_eq_iff.1 h
  · split at h <;> exact nomatch h
  obtain ⟨-, h⟩ | ⟨-, h⟩ := ite_eq_iff.1 h
  · obtain ⟨v, hv⟩ | ⟨f, hf⟩ := takeInteger_kind (b :: t)
    · rw [h] at hv; exact nomatch hv
    · rw [h] at hf; exact nomatch hf
  obtain ⟨-, h⟩ | ⟨-, h⟩ := ite_eq_iff.1 h
  · have hl := congrArg Prod.fst h
    simp only [literal] at hl
    split at hl
    · exact nomatch hl
    split at hl
    · exact nomatch hl
    split at hl <;> exact nomatch hl
  · exact nomatch h

/-- Every lexeme that does not end the list takes an octet. -/
theorem next_length {s r : Bytes} {k : LexemeKind} (h : next s = (k, r)) (hk : isLast k = false) :
    r.length < s.length := by
  obtain ⟨w, rfl, hw, -⟩ := next_cut h hk
  have := List.length_pos_iff.2 hw
  rw [List.length_append]
  omega

end Lexeme

/-- The lexemes of a text that begins at an offset. -/
def lexemesFrom (start : Nat) (s : Bytes) : List Lexeme := Lexeme.scanFrom (s.length + 1) start s

/-- More fuel than octets gives no more lexemes. -/
theorem scanFrom_eq {fuel start : Nat} {s : Bytes} (h : s.length < fuel) :
    Lexeme.scanFrom fuel start s = lexemesFrom start s := by
  have key : ∀ (m n start : Nat) (s : Bytes), s.length < m → s.length < n →
      Lexeme.scanFrom m start s = Lexeme.scanFrom n start s := by
    intro m
    induction m with
    | zero => exact fun n start s h => absurd h (Nat.not_lt_zero _)
    | succ m ih =>
        intro n start s hm hn
        obtain ⟨n, rfl⟩ := Nat.exists_eq_succ_of_ne_zero (Nat.ne_zero_of_lt hn)
        rw [Lexeme.scanFrom, Lexeme.scanFrom]
        cases hs : Lexeme.next (s.dropWhile Bytes.isSpace) with
        | mk k r =>
            dsimp only
            cases hk : Lexeme.isLast k with
            | true => rfl
            | false =>
                have h₁ := Lexeme.next_length hs hk
                have h₂ := (List.dropWhile_sublist Bytes.isSpace (l := s)).length_le
                rw [if_neg Bool.false_ne_true, if_neg Bool.false_ne_true,
                  ih n _ r (by omega) (by omega)]
  exact key _ _ _ _ h (Nat.lt_succ_self _)

/-- Blanks in front only move the offset. -/
theorem lexemesFrom_blanks {w : Bytes} (hw : ∀ b ∈ w, Bytes.isSpace b = true) (start : Nat)
    (s : Bytes) : lexemesFrom start (w ++ s) = lexemesFrom (start + w.length) s := by
  have hle := (List.dropWhile_sublist Bytes.isSpace (l := s)).length_le
  have e : start + ((w ++ s).length - (s.dropWhile Bytes.isSpace).length) =
      start + w.length + (s.length - (s.dropWhile Bytes.isSpace).length) := by
    rw [List.length_append]
    omega
  rw [← scanFrom_eq (show s.length < (w ++ s).length + 1 by rw [List.length_append]; omega),
    lexemesFrom, Lexeme.scanFrom, Lexeme.scanFrom, List.dropWhile_append_of_pos hw, e]

/-- The lexemes of a text that begins with a lexeme, and with no blank. -/
theorem lexemesFrom_of_next {k : LexemeKind} {b : UInt8} {u r : Bytes} (start : Nat)
    (hb : Bytes.isSpace b = false) (h : Lexeme.next (b :: u ++ r) = (k, r))
    (hk : Lexeme.isLast k = false) : lexemesFrom start (b :: u ++ r) =
      ⟨k, start, start + (b :: u).length⟩ :: lexemesFrom (start + (b :: u).length) r := by
  have hs : (b :: u ++ r).dropWhile Bytes.isSpace = b :: u ++ r := by
    rw [List.cons_append, List.dropWhile_cons_of_neg (by simp [hb])]
  rw [lexemesFrom, Lexeme.scanFrom, hs, h]
  dsimp only
  rw [hk, if_neg Bool.false_ne_true, Nat.sub_self, Nat.add_zero, List.length_append,
    Nat.add_sub_cancel, scanFrom_eq (by rw [List.length_cons]; omega)]

/-- The lexemes of a text with a written lexeme in front. -/
theorem lexemesFrom_append {k : LexemeKind} {u r : Bytes} (start : Nat) (h : k.Written u)
    (hr : EndsBefore k r) :
    lexemesFrom start (u ++ r) = ⟨k, start, start + u.length⟩ :: lexemesFrom (start + u.length) r := by
  obtain ⟨b, t, rfl, hb⟩ := head_of_written h
  exact lexemesFrom_of_next start hb (Lexeme.next_append h hr) (isLast_of_written h)

/-- At the end of the input there is only its end. -/
theorem lexemesFrom_atEnd {s : Bytes} (start : Nat) (h : Lexeme.atEnd s = true) :
    lexemesFrom start s = [⟨.endOfInput, start, start⟩] := by
  obtain rfl | rfl := Lexeme.atEnd_iff.1 h <;> rfl

end Json

end CilCatalog
