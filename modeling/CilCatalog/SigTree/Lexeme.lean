import CilCatalog.Bytes

/-!
# Lexemes of the text form

The text form of signature trees is first cut into lexemes.  There are no blanks: every octet belongs to a lexeme.  Words are maximal runs of letters and digits, and the last lexeme is either the end of the input or the first fault.  A zero octet in last place counts as the end of the input.
-/

namespace CilCatalog

namespace SigTree

/-- Why no lexeme could be cut off. -/
inductive LexFault where
  | zeroOctet
  | unexpected (b : UInt8)
  | openName
  | badInteger (digits : Bytes)
deriving DecidableEq, Repr

def LexFault.message : LexFault → Bytes
  | zeroOctet     => "Unexpected NUL character"
  | unexpected b  => "Unexpected character '" ++ [b] ++ "'"
  | openName      => "Unterminated token name"
  | badInteger ds => "Invalid 32-bit integer '" ++ ds ++ "'"

/-- What a lexeme is. -/
inductive LexemeKind where
  | open | close | comma
  | word (w : Bytes)
  | name (n : Bytes)
  | integer (v : Int32)
  | fault (f : LexFault)
  | endOfInput
deriving DecidableEq, Repr

/-- What messages call a lexeme. -/
def LexemeKind.describe : LexemeKind → String
  | .open       => "'('"
  | .close      => "')'"
  | .comma      => "','"
  | .word _     => "identifier"
  | .name _     => "token name"
  | .integer _  => "integer"
  | .fault _    => "invalid token"
  | .endOfInput => "end of input"

/-- A lexeme with the offsets of its first octet and of the octet behind it. -/
structure Lexeme where
  kind : LexemeKind
  start : Nat
  stop : Nat
deriving DecidableEq, Repr

namespace Lexeme

/-- Whether what is left counts as the end of the input. -/
def atEnd : Bytes → Bool
  | []  => true
  | [b] => b == 0
  | _   => false

/-- A quoted name behind its opening quote: the octets in front of the closing quote, and what follows it; or what is left where the input ended. -/
def takeName : Bytes → Bytes → Except Bytes (Bytes × Bytes)
  | _,   []     => .error []
  | acc, b :: r =>
      if b == octet '\'' then .ok (acc.reverse, r)
      else if b == 0 && r.isEmpty then .error [b]
      else takeName (b :: acc) r

/-- The number that digits with an optional minus sign stand for, if it has 32 bits. -/
def integerValue? (negative : Bool) (digits : Bytes) : Option Int32 :=
  let n := Bytes.digitsValue digits
  if digits.isEmpty then none
  else if negative then
    if n ≤ 0x80000000 then some (Int32.ofInt (-n)) else none
  else
    if n < 0x80000000 then some (Int32.ofInt n) else none

/-- An integer at the front: an optional minus sign and the digits behind it. -/
def takeInteger (s : Bytes) : LexemeKind × Bytes :=
  let negative := s.head? == some (octet '-')
  let body := if negative then s.tail else s
  let digits := body.takeWhile Bytes.isDigit
  let rest := body.dropWhile Bytes.isDigit
  match integerValue? negative digits with
  | some v => (.integer v, rest)
  | none   => (.fault (.badInteger (if negative then octet '-' :: digits else digits)), rest)

/-- The lexeme at the front, and what is behind it. -/
def next (s : Bytes) : LexemeKind × Bytes :=
  if atEnd s then (.endOfInput, s)
  else match s with
    | []     => (.endOfInput, [])
    | b :: r =>
        if b == 0 then (.fault .zeroOctet, s)
        else if b == octet '(' then (.open, r)
        else if b == octet ')' then (.close, r)
        else if b == octet ',' then (.comma, r)
        else if b == octet '\'' then
          match takeName [] r with
          | .ok (n, rest)   => (.name n, rest)
          | .error rest     => (.fault .openName, rest)
        else if b == octet '-' || Bytes.isDigit b then takeInteger s
        else if Bytes.isLetter b then
          (.word (s.takeWhile fun c => Bytes.isLetter c || Bytes.isDigit c),
           s.dropWhile fun c => Bytes.isLetter c || Bytes.isDigit c)
        else (.fault (.unexpected b), s)

/-- Whether nothing is cut behind a lexeme of this kind. -/
def isLast : LexemeKind → Bool
  | .fault _ | .endOfInput => true
  | _                      => false

/-- At most `fuel` lexemes of `s`, a text that begins at offset `start`. -/
def scanFrom : Nat → Nat → Bytes → List Lexeme
  | 0,        _,     _ => []
  | fuel + 1, start, s =>
      let (kind, rest) := next s
      let stop := start + (s.length - rest.length)
      let lexeme := ⟨kind, start, stop⟩
      if isLast kind then [lexeme] else lexeme :: scanFrom fuel stop rest

/-- The lexemes of a text.  Each but the last has an octet, so their number is bounded. -/
def scan (s : Bytes) : List Lexeme := scanFrom (s.length + 1) 0 s

end Lexeme

end SigTree

end CilCatalog
