import CilCatalog.Bytes

/-!
# Lexemes of JSON text

Lexemes with blanks dropped between them.  The last lexeme is either the end of the input or the first fault, and a zero octet in last place counts as the end of the input.  String literals are read octet by octet with the state of a `LiteralState`; an escape of a high surrogate must be followed by one of a low surrogate at once.
-/

namespace CilCatalog

namespace Json

/-- Why no lexeme could be cut off. -/
inductive LexFault where
  | zeroOctet
  | unexpected (b : UInt8)
  | unknownLiteral (word : Bytes)
  | openString
  | controlOctet
  | badUnicodeEscape
  | unpairedSurrogate
  | badEscape (b : UInt8)
  | notIntegral
  | badInteger (digits : Bytes)
deriving DecidableEq, Repr

def LexFault.message : LexFault → Bytes
  | zeroOctet         => "Unexpected NUL character"
  | unexpected b      => "Unexpected character '" ++ [b] ++ "'"
  | unknownLiteral w  => "Unknown literal '" ++ w ++ "'"
  | openString        => "Unterminated string"
  | controlOctet      => "Unescaped control character in string"
  | badUnicodeEscape  => "Invalid \\u escape"
  | unpairedSurrogate => "Unpaired surrogate in \\u escape"
  | badEscape b       => "Invalid escape sequence '\\" ++ [b] ++ "'"
  | notIntegral       => "Only integral numbers are supported"
  | badInteger ds     => "Invalid integer '" ++ ds ++ "'"

/-- What a lexeme is. -/
inductive LexemeKind where
  | openBrace | closeBrace | openBracket | closeBracket | colon | comma
  | string (s : Bytes)
  | integer (i : Int64)
  | true | false | null
  | fault (f : LexFault)
  | endOfInput
deriving DecidableEq, Repr

/-- What messages call a lexeme. -/
def LexemeKind.describe : LexemeKind → String
  | .openBrace    => "'\x7b'"
  | .closeBrace   => "'\x7d'"
  | .openBracket  => "'['"
  | .closeBracket => "']'"
  | .colon        => "':'"
  | .comma        => "','"
  | .string _     => "string"
  | .integer _    => "integer"
  | .true         => "true"
  | .false        => "false"
  | .null         => "null"
  | .fault _      => "invalid token"
  | .endOfInput   => "end of input"

/-- A lexeme with the offsets of its first octet and of the octet behind it. -/
structure Lexeme where
  kind : LexemeKind
  start : Nat
  stop : Nat
deriving DecidableEq, Repr

/-- The UTF-8 octets of a code point. -/
def codePoint (n : Nat) : Bytes :=
  if n < 0x80 then [n.toUInt8]
  else if n < 0x800 then [(0xC0 + n / 0x40).toUInt8, (0x80 + n % 0x40).toUInt8]
  else if n < 0x10000 then
    [(0xE0 + n / 0x1000).toUInt8, (0x80 + n / 0x40 % 0x40).toUInt8, (0x80 + n % 0x40).toUInt8]
  else
    [(0xF0 + n / 0x40000).toUInt8, (0x80 + n / 0x1000 % 0x40).toUInt8,
     (0x80 + n / 0x40 % 0x40).toUInt8, (0x80 + n % 0x40).toUInt8]

def isHighSurrogate (n : Nat) : Bool := 0xD800 ≤ n && n ≤ 0xDBFF

def isLowSurrogate (n : Nat) : Bool := 0xDC00 ≤ n && n ≤ 0xDFFF

/-- The code point of a surrogate pair. -/
def pairValue (high low : Nat) : Nat := 0x10000 + (high - 0xD800) * 0x400 + (low - 0xDC00)

/-- What a one-letter escape stands for. -/
def simpleEscape? (b : UInt8) : Option UInt8 :=
  if b == octet '"' || b == octet '\\' || b == octet '/' then some b
  else if b == octet 'b' then some 0x08
  else if b == octet 'f' then some 0x0C
  else if b == octet 'n' then some 0x0A
  else if b == octet 'r' then some 0x0D
  else if b == octet 't' then some 0x09
  else none

/-- Where in a string literal the reader is. -/
inductive LiteralState where
  /-- Between octets. -/
  | plain
  /-- Behind a backslash. -/
  | escape
  /-- Behind all but `left + 1` digits of a unicode escape with the given value so far, which follows the escape of a high surrogate if there is one. -/
  | hex (high : Option Nat) (left value : Nat)
  /-- Behind the escape of a high surrogate. -/
  | afterHigh (high : Nat)
  /-- Behind that and a backslash. -/
  | afterHighEscape (high : Nat)
deriving DecidableEq, Repr

/-- The fault of a unicode escape that is not finished. -/
def hexFault : Option Nat → LexFault
  | none   => .badUnicodeEscape
  | some _ => .unpairedSurrogate

/-- What a complete unicode escape with value `n` leads to: a fault, or octets and the next state. -/
def finishHex (high : Option Nat) (n : Nat) : Except LexFault (Bytes × LiteralState) :=
  match high with
  | some h =>
      if isLowSurrogate n then .ok (codePoint (pairValue h n), .plain)
      else .error .unpairedSurrogate
  | none =>
      if isHighSurrogate n then .ok ([], .afterHigh n)
      else if isLowSurrogate n then .error .unpairedSurrogate
      else .ok (codePoint n, .plain)

/-- A string literal behind its opening quote: its octets and what follows the closing quote, or the fault and what is left where it lies. -/
def takeString : LiteralState → Bytes → Bytes → Except (LexFault × Bytes) (Bytes × Bytes)
  | .plain,             _,   []     => .error (.openString, [])
  | .escape,            _,   []     => .error (.badEscape 0, [])
  | .hex high _ _,      _,   []     => .error (hexFault high, [])
  | .afterHigh _,       _,   []     => .error (.unpairedSurrogate, [])
  | .afterHighEscape _, _,   []     => .error (.unpairedSurrogate, [])
  | .plain,             acc, b :: r =>
      if b == octet '"' then .ok (acc.reverse, r)
      else if b == 0 && r.isEmpty then .error (.openString, b :: r)
      else if b < 0x20 then .error (.controlOctet, b :: r)
      else if b == octet '\\' then takeString .escape acc r
      else takeString .plain (b :: acc) r
  | .escape,            acc, b :: r =>
      if b == octet 'u' then takeString (.hex none 3 0) acc r
      else match simpleEscape? b with
        | some c => takeString .plain (c :: acc) r
        | none   => .error (.badEscape b, b :: r)
  | .hex high left n,   acc, b :: r =>
      if Bytes.isHexDigit b then
        match left with
        | left' + 1 => takeString (.hex high left' (n * 16 + Bytes.hexDigitValue b)) acc r
        | 0 =>
            match finishHex high (n * 16 + Bytes.hexDigitValue b) with
            | .ok (bs, state) => takeString state (bs.reverse ++ acc) r
            | .error f        => .error (f, b :: r)
      else .error (hexFault high, b :: r)
  | .afterHigh h,       acc, b :: r =>
      if b == octet '\\' then takeString (.afterHighEscape h) acc r
      else .error (.unpairedSurrogate, b :: r)
  | .afterHighEscape h, acc, b :: r =>
      if b == octet 'u' then takeString (.hex (some h) 3 0) acc r
      else .error (.unpairedSurrogate, b :: r)

/-- The number that digits with an optional minus sign stand for, if it has 64 bits. -/
def integerValue? (negative : Bool) (digits : Bytes) : Option Int64 :=
  let n := Bytes.digitsValue digits
  if digits.isEmpty then none
  else if negative then
    if n ≤ 0x8000000000000000 then some (Int64.ofInt (-n)) else none
  else
    if n < 0x8000000000000000 then some (Int64.ofInt n) else none

/-- Whether an octet behind digits announces a fraction or an exponent. -/
def continuesNumber (b : UInt8) : Bool := b == octet '.' || b == octet 'e' || b == octet 'E'

/-- An integer at the front: an optional minus sign and the digits behind it. -/
def takeInteger (s : Bytes) : LexemeKind × Bytes :=
  let negative := s.head? == some (octet '-')
  let body := if negative then s.tail else s
  let digits := body.takeWhile Bytes.isDigit
  let rest := body.dropWhile Bytes.isDigit
  if rest.head?.any continuesNumber then (.fault .notIntegral, rest)
  else match integerValue? negative digits with
    | some v => (.integer v, rest)
    | none   => (.fault (.badInteger (if negative then octet '-' :: digits else digits)), rest)

/-- The literal a word stands for. -/
def literal (w : Bytes) : LexemeKind :=
  if w = "true" then .true
  else if w = "false" then .false
  else if w = "null" then .null
  else .fault (.unknownLiteral w)

namespace Lexeme

/-- Whether what is left counts as the end of the input. -/
def atEnd : Bytes → Bool
  | []  => true
  | [b] => b == 0
  | _   => false

/-- The lexeme at the front of a text that does not begin with a blank, and what is behind it. -/
def next (s : Bytes) : LexemeKind × Bytes :=
  if atEnd s then (.endOfInput, s)
  else match s with
    | []     => (.endOfInput, [])
    | b :: r =>
        if b == 0 then (.fault .zeroOctet, s)
        else if b == octet '\x7b' then (.openBrace, r)
        else if b == octet '\x7d' then (.closeBrace, r)
        else if b == octet '[' then (.openBracket, r)
        else if b == octet ']' then (.closeBracket, r)
        else if b == octet ':' then (.colon, r)
        else if b == octet ',' then (.comma, r)
        else if b == octet '"' then
          match takeString .plain [] r with
          | .ok (t, rest)    => (.string t, rest)
          | .error (f, rest) => (.fault f, rest)
        else if b == octet '-' || Bytes.isDigit b then takeInteger s
        else if Bytes.isLetter b then
          (literal (s.takeWhile Bytes.isLetter), s.dropWhile Bytes.isLetter)
        else (.fault (.unexpected b), s)

/-- Whether nothing is cut behind a lexeme of this kind. -/
def isLast : LexemeKind → Bool
  | .fault _ | .endOfInput => true
  | _                      => false

/-- At most `fuel` lexemes of `s`, a text that begins at offset `start`. -/
def scanFrom : Nat → Nat → Bytes → List Lexeme
  | 0,        _,     _ => []
  | fuel + 1, start, s =>
      let body := s.dropWhile Bytes.isSpace
      let start := start + (s.length - body.length)
      let (kind, rest) := next body
      let stop := start + (body.length - rest.length)
      let lexeme := ⟨kind, start, stop⟩
      if isLast kind then [lexeme] else lexeme :: scanFrom fuel stop rest

/-- The lexemes of a text.  Each but the last has an octet, so their number is bounded. -/
def scan (s : Bytes) : List Lexeme := scanFrom (s.length + 1) 0 s

end Lexeme

end Json

end CilCatalog
