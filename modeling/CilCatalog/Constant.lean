import CilCatalog.ElementType
import CilCatalog.FloatBits
import CilCatalog.Warned

/-!
# Constants

A constant is a value with the element type code it was declared with; the code is kept apart because a null reference has an element type and no value.  Primitive values fit a 64-bit *slot*: integers are extended by their sign or by zeros, and floating-point numbers are held as 64-bit patterns.
-/

namespace CilCatalog

/-- A constant value.  Floating-point numbers are bit patterns. -/
inductive ConstantValue where
  | null
  | bool (b : Bool)
  | char (u : UInt16)
  | i1 (n : Int8)
  | u1 (n : UInt8)
  | i2 (n : Int16)
  | u2 (n : UInt16)
  | i4 (n : Int32)
  | u4 (n : UInt32)
  | i8 (n : Int64)
  | u8 (n : UInt64)
  | r4 (bits : UInt32)
  | r8 (bits : UInt64)
  | string (s : Bytes)
deriving DecidableEq, Repr

/-- A value and the element type code it was declared with. -/
structure Constant where
  type : UInt8
  value : ConstantValue
deriving DecidableEq, Repr

/-- The element type has no slot form. -/
structure SlotFault where
  code : UInt8
deriving DecidableEq, Repr

instance : Fault SlotFault where
  kind _ := .invalidData
  message f :=
    "Element type 0x" ++ Bytes.hexadecimalUpper 2 f.code.toNat ++
      " has no primitive slot representation"

namespace ConstantValue

/-- The element type of a value other than null. -/
def elementType? : ConstantValue → Option ElementType
  | null     => none
  | bool _   => some .boolean
  | char _   => some .char
  | i1 _     => some .i1
  | u1 _     => some .u1
  | i2 _     => some .i2
  | u2 _     => some .u2
  | i4 _     => some .i4
  | u4 _     => some .u4
  | i8 _     => some .i8
  | u8 _     => some .u8
  | r4 _     => some .r4
  | r8 _     => some .r8
  | string _ => some .string

/-- The slot of a primitive value. -/
def slot? : ConstantValue → Option Int64
  | null     => none
  | bool b   => some (if b then 1 else 0)
  | char u   => some u.toUInt64.toInt64
  | i1 n     => some n.toInt64
  | u1 n     => some n.toUInt64.toInt64
  | i2 n     => some n.toInt64
  | u2 n     => some n.toUInt64.toInt64
  | i4 n     => some n.toInt64
  | u4 n     => some n.toUInt64.toInt64
  | i8 n     => some n
  | u8 n     => some n.toInt64
  | r4 b     => some (FloatBits.widen b).toInt64
  | r8 b     => some b.toInt64
  | string _ => none

/-- What putting a 32-bit floating-point number into a slot warns of. -/
def wideningWarning? (bits : UInt32) : Option Warning :=
  if FloatBits.isNaN32 bits && FloatBits.narrow (FloatBits.widen bits) != bits then
    some (.widening bits)
  else none

/-- What putting a value into a slot warns of. -/
def slotWarning? : ConstantValue → Option Warning
  | r4 b => wideningWarning? b
  | _    => none

/-- What narrowing a 64-bit floating-point number warns of. -/
def narrowingWarning? (bits : UInt64) : Option Warning :=
  if FloatBits.isNaN64 bits && FloatBits.widen (FloatBits.narrow bits) != bits then
    some (.narrowing bits)
  else none

/-- The value of a slot, read as element type number `code`. -/
def ofSlot (slot : Int64) (code : UInt8) : Warned SlotFault ConstantValue :=
  let bits := slot.toUInt64
  match ElementType.ofCode? code with
  | some .boolean => pure (bool (slot != 0))
  | some .char    => pure (char bits.toUInt16)
  | some .i1      => pure (i1 slot.toInt8)
  | some .u1      => pure (u1 bits.toUInt8)
  | some .i2      => pure (i2 slot.toInt16)
  | some .u2      => pure (u2 bits.toUInt16)
  | some .i4      => pure (i4 slot.toInt32)
  | some .u4      => pure (u4 bits.toUInt32)
  | some .i8      => pure (i8 slot)
  | some .u8      => pure (u8 bits)
  | some .r4      => ⟨(narrowingWarning? bits).toList, .ok (r4 (FloatBits.narrow bits))⟩
  | some .r8      => pure (r8 bits)
  | _             => .fail ⟨code⟩

end ConstantValue

end CilCatalog
