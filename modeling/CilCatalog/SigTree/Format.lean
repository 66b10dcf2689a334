import CilCatalog.SigTree.Shape

/-!
# Text of a signature tree

The compact text form: names, quoted token names, decimal indices and argument lists in parentheses, without blanks.  Only trees whose codes have names and whose arguments fit their shapes have a text.
-/

namespace CilCatalog

namespace SigTree

/-- Why a tree has no text. -/
inductive FormatFault where
  | negativeIndex (i : Int32)
  | unknownElementType (code : UInt8)
  | unknownConvention (code : UInt8)
  | leafArguments (e : ElementType)
  | shape (f : ShapeFault)
deriving DecidableEq, Repr

namespace FormatFault

def message : FormatFault → Bytes
  | negativeIndex i      => "Negative token index " ++ Bytes.signedDecimal i.toInt
  | unknownElementType c => "Invalid element type: " ++ Bytes.decimal c.toNat
  | unknownConvention c  => "Invalid calling convention: " ++ Bytes.decimal c.toNat
  | leafArguments e      => "'" ++ e.name ++ "' takes no arguments"
  | shape f              => f.message

instance : Fault FormatFault where
  kind _ := .invalidData
  message := message

end FormatFault

/-- The element type of a node with code `c` and arguments `as`, which must fit it. -/
def checkTypeSig (c : UInt8) (as : List SigTree) : Except FormatFault ElementType :=
  match ElementType.ofCode? c with
  | none   => .error (.unknownElementType c)
  | some e =>
      if e.isLeaf then
        if as.isEmpty then .ok e else .error (.leafArguments e)
      else match e.checkArgs as with
        | .ok _    => .ok e
        | .error f => .error (.shape f)

/-- The calling convention of a node with code `c` and arguments `as`, which must fit it. -/
def checkCallSig (c : UInt8) (as : List SigTree) : Except FormatFault CallingConvention :=
  match CallingConvention.ofCode? c with
  | none   => .error (.unknownConvention c)
  | some k =>
      match k.checkArgs as with
      | .ok _    => .ok k
      | .error f => .error (.shape f)

/-- The texts of arguments, between commas. -/
def joinArgs : List Bytes → Bytes
  | []          => []
  | [t]         => t
  | t :: u :: r => t ++ octet ',' :: joinArgs (u :: r)

/-- The texts of arguments as a list in parentheses; no arguments have no list. -/
def parenthesize : List Bytes → Bytes
  | [] => []
  | ts => octet '(' :: joinArgs ts ++ [octet ')']

mutual

/-- The text of a tree. -/
def format : SigTree → Except FormatFault Bytes
  | token (.named n) => .ok (octet '\'' :: n.bytes ++ [octet '\''])
  | token (.index i) =>
      if i < 0 then .error (.negativeIndex i) else .ok (Bytes.signedDecimal i.toInt)
  | typeSig c as     => do
      let e ← checkTypeSig c as
      return e.name ++ parenthesize (← formatAll as)
  | callSig c as     => do
      let k ← checkCallSig c as
      return k.name ++ parenthesize (← formatAll as)
  | int32 v          => .ok ("Int32(" ++ Bytes.signedDecimal v.toInt ++ ")")
  | methodSpec m i   => do
      let s ← format m
      let t ← format i
      return "MethodSpec" ++ parenthesize [s, t]
  | inline k o       => do
      let s ← format o
      return k.name ++ parenthesize [s]

/-- The texts of trees, or the fault of the first that has none. -/
def formatAll : List SigTree → Except FormatFault (List Bytes)
  | []      => .ok []
  | a :: as => do
      let s ← format a
      let r ← formatAll as
      return s :: r

end

/-- Whether a tree has a text. -/
def Formattable (t : SigTree) : Prop := ∃ s, t.format = .ok s

/-- The text of a tree that must have one. -/
def requireText {φ : Type} (t : SigTree) : Except (Failure φ) Bytes :=
  match t.format with
  | .ok s    => .ok s
  | .error f => .error (.breach ("Cannot format complex type: " ++ f.message))

/-- The text of a tree for messages. -/
def display (t : SigTree) : Bytes :=
  match t.format with
  | .ok s    => s
  | .error _ => "<malformed>"

end SigTree

end CilCatalog
