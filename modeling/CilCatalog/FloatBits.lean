/-!
# Bit patterns of floating-point numbers

Conversion between the 32-bit and 64-bit binary formats of IEEE 754, on bit patterns.  A conversion rounds to nearest, ties to even; it makes a NaN quiet and keeps the top bits of its payload.
-/

namespace CilCatalog

namespace FloatBits

/-- What bit number `n` is worth. -/
def weight (n : Nat) : Nat := 1 <<< n

/-- The quotient of `n` by `weight s`, rounded to nearest, ties to even. -/
def roundShift (n s : Nat) : Nat :=
  let q := n / weight s
  let r := n % weight s
  if weight s < 2 * r || (weight s == 2 * r && q % 2 == 1) then q + 1 else q

/-- Whether a 32-bit pattern is a NaN. -/
def isNaN32 (b : UInt32) : Bool := b.toNat / weight 23 % weight 8 == 255 && b.toNat % weight 23 != 0

/-- Whether a 64-bit pattern is a NaN. -/
def isNaN64 (b : UInt64) : Bool := b.toNat / weight 52 % weight 11 == 2047 && b.toNat % weight 52 != 0

/-- The bit of a 32-bit fraction field that makes a NaN quiet. -/
def quietBit32 : Nat := weight 22

/-- The magnitude of a 32-bit pattern, with exponent field `e` and fraction field `f`, in the 64-bit format. -/
def widenMagnitude (e f : Nat) : Nat :=
  if e = 255 then
    if f = 0 then 2047 * weight 52
    else 2047 * weight 52 + (f ||| quietBit32) * weight 29
  else if e = 0 then
    if f = 0 then 0
    else (f.log2 + 874) * weight 52 + (f - weight f.log2) * weight (52 - f.log2)
  else (e + 896) * weight 52 + f * weight 29

/-- A 32-bit pattern in the 64-bit format. -/
def widen (b : UInt32) : UInt64 :=
  let n := b.toNat
  (n / weight 31 * weight 63 + widenMagnitude (n / weight 23 % weight 8) (n % weight 23)).toUInt64

/-- The magnitude of a 64-bit pattern, with exponent field `e` and fraction field `f`, in the 32-bit format.  A carry out of the rounded fraction belongs to the exponent. -/
def narrowMagnitude (e f : Nat) : Nat :=
  if e = 2047 then
    if f = 0 then 255 * weight 23
    else 255 * weight 23 + (f / weight 29 ||| quietBit32)
  else if 896 < e then
    min (255 * weight 23) ((e - 897) * weight 23 + roundShift (weight 52 + f) 29)
  else if 0 < e && 872 ≤ e then roundShift (weight 52 + f) (926 - e)
  else 0

/-- A 64-bit pattern in the 32-bit format. -/
def narrow (b : UInt64) : UInt32 :=
  let n := b.toNat
  (n / weight 63 * weight 31 + narrowMagnitude (n / weight 52 % weight 11) (n % weight 52)).toUInt32

end FloatBits

end CilCatalog
