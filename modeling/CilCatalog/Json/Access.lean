import CilCatalog.Json.Value

/-!
# Lenient access to JSON

Reading values that were written by hand.  What is absent counts as null, and null as the default of whatever is due; a 64-bit number may be spelled in a string, and a byte string that is not text is an object with its hexadecimal digits.
-/

namespace CilCatalog.Json

/-- The member called `k`; null if there is none. -/
def dot (v : Json) (k : String) : Json :=
  match v with
  | object ms => (find? ms k).getD null
  | _         => null

/-- Whether there is a member called `k`. -/
def has (v : Json) (k : String) : Bool :=
  match v with
  | object ms => (find? ms k).isSome
  | _         => false

def isNull : Json → Bool
  | null => true
  | _    => false

/-- The value, unless it is null. -/
def opt (v : Json) : Option Json := if v.isNull then none else some v

/-- The octets that pairs of hexadecimal digits stand for. -/
def ofHex : Bytes → Bytes
  | a :: b :: r => (Bytes.hexDigitValue a * 16 + Bytes.hexDigitValue b).toUInt8 :: ofHex r
  | _           => []

/-- A lower-case hexadecimal digit. -/
def hexDigit (n : UInt8) : UInt8 := if n < 10 then 0x30 + n else 0x57 + n

/-- Two hexadecimal digits for every octet. -/
def toHex (b : Bytes) : Bytes :=
  b.flatMap fun (o : UInt8) => [hexDigit (o >>> 4), hexDigit (o &&& 15)]

/-- A byte string in either of its forms. -/
def bytes (v : Json) : Bytes :=
  match v with
  | string s => s
  | v        =>
      match v.dot "bytes" with
      | string h => ofHex h
      | _        => []

/-- A byte string that may be absent. -/
def bytes? (v : Json) : Option Bytes := v.opt.map bytes

/-- A byte string in hexadecimal digits. -/
def hex (v : Json) : Bytes := ofHex v.bytes

/-- The number that hexadecimal digits stand for. -/
def hexNat (v : Json) : Nat := v.bytes.foldl (fun n b => 16 * n + Bytes.hexDigitValue b) 0

/-- A number, which may be spelled in a string. -/
def number : Json → Int
  | int i  => i.toInt
  | bool b => if b then 1 else 0
  | string (0x2D :: ds) => -(Bytes.digitsValue ds : Int)
  | string ds => Bytes.digitsValue ds
  | _      => 0

def nat (v : Json) : Nat := v.number.toNat

def int32 (v : Json) : Int32 := Int32.ofInt v.number

def int64 (v : Json) : Int64 := Int64.ofInt v.number

def uint8 (v : Json) : UInt8 := UInt8.ofInt v.number

def uint16 (v : Json) : UInt16 := UInt16.ofInt v.number

def uint32 (v : Json) : UInt32 := UInt32.ofInt v.number

def truth : Json → Bool
  | bool b => b
  | int i  => i != 0
  | _      => false

def list : Json → List Json
  | array es => es
  | _        => []

/-- A list that may be absent. -/
def list? : Json → Option (List Json)
  | array es => some es
  | _        => none

def members : Json → List (Bytes × Json)
  | object ms => ms
  | _         => []

/-! ### Making values -/

def ofString (s : String) : Json := string (utf8 s)

def ofNat (n : Nat) : Json := int (Int64.ofNat n)

def ofInt (i : Int) : Json := int (Int64.ofInt i)

/-- A number spelled in a string. -/
def decimal (i : Int) : Json := string (Bytes.signedDecimal i)

def hexText (b : Bytes) : Json := string (toHex b)

/-- The last `width` hexadecimal digits of a number. -/
def hexBits (width n : Nat) : Json :=
  string ((Bytes.hexadecimalUpper width n).map fun c => if c ≥ 0x41 then c + 0x20 else c)

/-- A value, or null. -/
def orNull (o : Option Json) : Json := o.getD null

/-- A member of an object. -/
def entry (k : String) (v : Json) : Bytes × Json := (utf8 k, v)

/-- An object with one member. -/
def tagged (k : String) (v : Json) : Json := object [entry k v]

/-- A member that may be absent. -/
def optEntry {α : Type} (k : String) (f : α → Json) (a : Option α) : List (Bytes × Json) :=
  (a.map fun a => entry k (f a)).toList

/-- A list as a member, which is left out if it is empty. -/
def listEntry {α : Type} (k : String) (f : α → Json) (as : List α) : List (Bytes × Json) :=
  if as.isEmpty then [] else [entry k (array (as.map f))]

end CilCatalog.Json
