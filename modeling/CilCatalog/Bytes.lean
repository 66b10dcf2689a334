/-!
# Bytes

Byte strings and the few ways numbers are spelled in them.  Names, texts and messages are byte strings and not character strings, because a name in metadata need not be valid Unicode and a message may quote a single octet of one.
-/

namespace CilCatalog

/-- A byte string. -/
abbrev Bytes := List UInt8

instance : LawfulBEq Bytes := inferInstanceAs (LawfulBEq (List UInt8))

/-- The UTF-8 octets of `s`. -/
def utf8 (s : String) : Bytes := s.toByteArray.data.toList

instance : Coe String Bytes := ⟨utf8⟩

/-- The octet of an ASCII character. -/
def octet (c : Char) : UInt8 := c.toNat.toUInt8

namespace Bytes

/-! ### Octet classes -/

def isDigit (b : UInt8) : Bool := 0x30 ≤ b && b ≤ 0x39

def isLetter (b : UInt8) : Bool := (0x61 ≤ b && b ≤ 0x7A) || (0x41 ≤ b && b ≤ 0x5A)

def isHexDigit (b : UInt8) : Bool :=
  isDigit b || (0x61 ≤ b && b ≤ 0x66) || (0x41 ≤ b && b ≤ 0x46)

/-- Blank, tabulator, line feed, vertical tabulator, form feed and carriage return. -/
def isSpace (b : UInt8) : Bool := b == 0x20 || (0x09 ≤ b && b ≤ 0x0D)

/-! ### Numbers -/

/-- The decimal digits of `n`, without leading zeros. -/
def decimal (n : Nat) : Bytes := (Nat.toDigits 10 n).map octet

/-- The decimal digits of `i`, after a minus sign if it is negative. -/
def signedDecimal : Int → Bytes
  | .ofNat n   => decimal n
  | .negSucc n => octet '-' :: decimal (n + 1)

/-- The number a run of decimal digits stands for. -/
def digitsValue (ds : Bytes) : Nat := ds.foldl (fun n d => 10 * n + (d.toNat - 0x30)) 0

/-- The lower-case hexadecimal digits of `n`, without leading zeros. -/
def hexadecimal (n : Nat) : Bytes := (Nat.toDigits 16 n).map octet

/-- The last `width` upper-case hexadecimal digits of `n`. -/
def hexadecimalUpper : Nat → Nat → Bytes
  | 0,         _ => []
  | width + 1, n =>
      hexadecimalUpper width (n / 16) ++
        [if n % 16 < 10 then (0x30 + n % 16).toUInt8 else (0x37 + n % 16).toUInt8]

/-- `0x` and the hexadecimal digits of the absolute value, with the sign in front. -/
def signedHexadecimal (i : Int) : Bytes :=
  (if i < 0 then [octet '-'] else []) ++ "0x" ++ hexadecimal i.natAbs

/-- The value of a hexadecimal digit of either case. -/
def hexDigitValue (b : UInt8) : Nat :=
  if isDigit b then b.toNat - 0x30 else (b ||| 0x20).toNat - 0x61 + 10

/-! ### Edits -/

/-- `t` with each octet that occurs in `chars` replaced by `w`. -/
def replaceAny (chars : Bytes) (w : UInt8) (t : Bytes) : Bytes :=
  t.map fun b => if b ∈ chars then w else b

/-- `t` without the blanks at either end. -/
def trim (t : Bytes) : Bytes :=
  let blank := (· == octet ' ')
  ((t.dropWhile blank).reverse.dropWhile blank).reverse

theorem replaceAny_nil (w : UInt8) (t : Bytes) : replaceAny [] w t = t := by
  simp [replaceAny]

theorem length_replaceAny (chars : Bytes) (w : UInt8) (t : Bytes) :
    (replaceAny chars w t).length = t.length := by
  simp [replaceAny]

/-- No octet of `chars` is left, unless the replacement is one. -/
theorem not_mem_replaceAny {chars : Bytes} {w b : UInt8} (t : Bytes) (hw : w ∉ chars)
    (hb : b ∈ chars) : b ∉ replaceAny chars w t := by
  intro h
  obtain ⟨c, -, hc⟩ := List.mem_map.1 h
  split at hc
  · exact hw (hc ▸ hb)
  · next hn => exact hn (hc ▸ hb)

end Bytes

end CilCatalog
