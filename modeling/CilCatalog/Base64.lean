import CilCatalog.Bytes

/-!
# Base64

The encoding of RFC 4648 with padding.  Three octets make four characters; one or two left over make two or three characters and padding.  Decoding takes padding only at the very end, and does not ask that the bits it drops there are zero.
-/

namespace CilCatalog

namespace Base64

/-- The character for a value below 64. -/
def letter (n : Nat) : UInt8 :=
  if n < 26 then (0x41 + n).toUInt8
  else if n < 52 then (0x61 + (n - 26)).toUInt8
  else if n < 62 then (0x30 + (n - 52)).toUInt8
  else if n = 62 then octet '+'
  else octet '/'

/-- The value of a character of the alphabet. -/
def value? (b : UInt8) : Option Nat :=
  if 0x41 ≤ b && b ≤ 0x5A then some (b.toNat - 0x41)
  else if 0x61 ≤ b && b ≤ 0x7A then some (b.toNat - 0x61 + 26)
  else if 0x30 ≤ b && b ≤ 0x39 then some (b.toNat - 0x30 + 52)
  else if b == octet '+' then some 62
  else if b == octet '/' then some 63
  else none

/-- The padding character. -/
def pad : UInt8 := octet '='

/-- The text of a byte string. -/
def encode : Bytes → Bytes
  | []            => []
  | [a]           =>
      [letter (a.toNat / 4), letter (a.toNat % 4 * 16), pad, pad]
  | [a, b]        =>
      [letter (a.toNat / 4), letter (a.toNat % 4 * 16 + b.toNat / 16),
       letter (b.toNat % 16 * 4), pad]
  | a :: b :: c :: r =>
      letter (a.toNat / 4) :: letter (a.toNat % 4 * 16 + b.toNat / 16) ::
        letter (b.toNat % 16 * 4 + c.toNat / 64) :: letter (c.toNat % 64) :: encode r

/-- The octets of four characters, the last two of which may be padding. -/
def decodeLast (a b c d : UInt8) : Option Bytes := do
  let x ← value? a
  let y ← value? b
  if c == pad && d == pad then
    return [(x * 4 + y / 16).toUInt8]
  let z ← value? c
  if d == pad then
    return [(x * 4 + y / 16).toUInt8, (y % 16 * 16 + z / 4).toUInt8]
  let w ← value? d
  return [(x * 4 + y / 16).toUInt8, (y % 16 * 16 + z / 4).toUInt8, (z % 4 * 64 + w).toUInt8]

/-- The octets of four characters of the alphabet. -/
def decodeQuad (a b c d : UInt8) : Option Bytes := do
  let x ← value? a
  let y ← value? b
  let z ← value? c
  let w ← value? d
  return [(x * 4 + y / 16).toUInt8, (y % 16 * 16 + z / 4).toUInt8, (z % 4 * 64 + w).toUInt8]

/-- The byte string that a text encodes. -/
def decode : Bytes → Option Bytes
  | []                     => some []
  | [a, b, c, d]           => decodeLast a b c d
  | a :: b :: c :: d :: r => do
      let q ← decodeQuad a b c d
      let rest ← decode r
      return q ++ rest
  | _                      => none

end Base64

end CilCatalog
