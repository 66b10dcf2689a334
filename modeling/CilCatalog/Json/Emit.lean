import CilCatalog.Json.Value

/-!
# JSON text

Values are written without blanks, or with every element and member on a line of its own, two blanks deeper than what encloses it.  Only quotes, backslashes and control characters are escaped.
-/

namespace CilCatalog

namespace Json

/-- An octet inside a string literal. -/
def escape (b : UInt8) : Bytes :=
  if b == octet '"' then "\\\""
  else if b == octet '\\' then "\\\\"
  else if b == 0x0A then "\\n"
  else if b == 0x0D then "\\r"
  else if b == 0x09 then "\\t"
  else if b == 0x08 then "\\b"
  else if b == 0x0C then "\\f"
  else if b < 0x20 then
    "\\u00" ++ (if b < 0x10 then [octet '0'] else []) ++ Bytes.hexadecimal b.toNat
  else [b]

/-- A string literal. -/
def quote (s : Bytes) : Bytes := octet '"' :: s.flatMap escape ++ [octet '"']

/-- A new line at an indentation level; without levels nothing is written. -/
def newline : Option Nat → Bytes
  | none   => []
  | some n => 0x0A :: List.replicate (2 * n) 0x20

/-- One level deeper. -/
def deeper (indent : Option Nat) : Option Nat := indent.map (· + 1)

/-- What stands between the name of a member and its value. -/
def colon (indent : Option Nat) : Bytes :=
  if indent.isSome then ": " else ":"

mutual

/-- The text of a value that begins at an indentation level. -/
def emit (indent : Option Nat) : Json → Bytes
  | null           => "null"
  | bool true      => "true"
  | bool false     => "false"
  | int i          => Bytes.signedDecimal i.toInt
  | string s       => quote s
  | array []       => [octet '[', octet ']']
  | array (e :: es)  =>
      octet '[' :: newline (deeper indent) ++ emit (deeper indent) e ++
        emitElements (deeper indent) es ++ newline indent ++ [octet ']']
  | object []      => [octet '\x7b', octet '\x7d']
  | object ((k, v) :: ms) =>
      octet '\x7b' :: newline (deeper indent) ++ quote k ++ colon (deeper indent) ++
        emit (deeper indent) v ++ emitMembers (deeper indent) ms ++
        newline indent ++ [octet '\x7d']

/-- The elements behind the first, each behind a comma. -/
def emitElements (indent : Option Nat) : List Json → Bytes
  | []      => []
  | e :: es => octet ',' :: newline indent ++ emit indent e ++ emitElements indent es

/-- The members behind the first, each behind a comma. -/
def emitMembers (indent : Option Nat) : List (Bytes × Json) → Bytes
  | []           => []
  | (k, v) :: ms =>
      octet ',' :: newline indent ++ quote k ++ colon indent ++ emit indent v ++
        emitMembers indent ms

end

/-- The text of a value. -/
def text (pretty : Bool) (v : Json) : Bytes := emit (if pretty then some 0 else none) v

end Json

end CilCatalog
