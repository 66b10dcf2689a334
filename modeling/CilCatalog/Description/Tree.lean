import CilCatalog.Constant
import CilCatalog.Json.Access
import CilCatalog.SigTree.Parse

/-!
# Descriptions of trees and values

The short JSON form in which signature trees, constants and entities are described by hand.  A tree is an object with its kind, or the text of a tree, or the index of a token.  Nothing is checked beyond what the construction of a tree checks.
-/

namespace CilCatalog

/-- Why a description describes nothing. -/
inductive DescriptionFault where
  | name (f : NameFault)
  | tree (f : SigTree.ParseFault)
deriving DecidableEq

instance : Fault DescriptionFault where
  kind
    | .name f => Fault.kind f
    | .tree f => Fault.kind f
  message
    | .name f => Fault.message f
    | .tree f => Fault.message f

/-- What a description describes, or why it describes nothing. -/
abbrev Described := Except (Failure DescriptionFault)

namespace Description

open Json (entry tagged orNull)

/-! ### Tokens -/

/-- A token is its name, or its index. -/
def ofToken : Token → Json
  | .named n => .string n.bytes
  | .index i => .int i.toInt64

def token (v : Json) : Described Token :=
  match v with
  | .int i => .ok (.index (Int32.ofInt i.toInt))
  | v      => Failure.lift .name (Token.ofName v.bytes)

/-- A token that may be absent. -/
def token? (v : Json) : Described (Option Token) := v.opt.mapM token

/-! ### Trees -/

mutual

/-- The object that describes a tree. -/
def ofTree : SigTree → Json
  | .token t        => .object [kindField .token, entry "token" (ofToken t)]
  | .int32 v        => .object [kindField .int32, entry "v" (.int v.toInt64)]
  | .typeSig c as   =>
      .object (kindField .typeSig :: entry "t" (.ofNat c.toNat) :: argumentField (ofTrees as))
  | .callSig c as   =>
      .object (kindField .callSig :: entry "t" (.ofNat c.toNat) :: argumentField (ofTrees as))
  | .methodSpec m i => .object (kindField .methodSpec :: argumentField [ofTree m, ofTree i])
  | .inline k o     => .object (kindField k.node :: argumentField [ofTree o])

def ofTrees : List SigTree → List Json
  | []      => []
  | t :: ts => ofTree t :: ofTrees ts

/-- The kind of a node. -/
def kindField (k : NodeKind) : Bytes × Json := entry "k" (.ofString k.name)

/-- The arguments of a node, left out if there are none. -/
def argumentField (as : List Json) : List (Bytes × Json) :=
  if as.isEmpty then [] else [entry "a" (.array as)]

end

/-- The node that an object describes, given its arguments. -/
def node (v : Json) (as : List SigTree) : Described SigTree :=
  let k := (v.dot "k").bytes
  let arg (n : Nat) : SigTree := as.getD n default
  if k = utf8 NodeKind.token.name then do SigTree.ofToken (← token (v.dot "token"))
  else if k = utf8 NodeKind.int32.name then .ok (.int32 (v.dot "v").int32)
  else if k = utf8 NodeKind.typeSig.name then .ok (.typeSig (v.dot "t").uint8 as)
  else if k = utf8 NodeKind.callSig.name then .ok (.callSig (v.dot "t").uint8 as)
  else if k = utf8 NodeKind.methodSpec.name then .ok (.methodSpec (arg 0) (arg 1))
  else match OperandKind.ofName? k with
    | some o => .ok (.inline o (arg 0))
    | none   => .ok default

/-- The tree that a value describes, no deeper than `depth`. -/
def treeWithin : Nat → Json → Described SigTree
  | 0,         _ => .error .unexplained
  | depth + 1, v =>
      match v with
      | .null     => .ok default
      | .int i    => SigTree.ofToken (.index (Int32.ofInt i.toInt))
      | .string s => Failure.widen .tree (SigTree.parse s)
      | v         =>
          if v.has "bytes" then Failure.widen .tree (SigTree.parse v.bytes)
          else do node v (← (v.dot "a").list.mapM (treeWithin depth))

/-- The tree that a value describes. -/
def tree (v : Json) : Described SigTree := treeWithin (v.depth + 1) v

/-- A tree that may be absent. -/
def tree? (v : Json) : Described (Option SigTree) := v.opt.mapM tree

/-- A list that may be absent. -/
def list? {α : Type} (element : Json → Described α) (v : Json) : Described (Option (List α)) :=
  v.list?.mapM fun es => es.mapM element

/-! ### Values -/

/-- A value is an object whose one member says of which type it is. -/
def ofValue : ConstantValue → Json
  | .null     => .null
  | .bool b   => tagged "bool" (.bool b)
  | .char u   => tagged "char" (.ofNat u.toNat)
  | .i1 n     => tagged "i1" (.ofInt n.toInt)
  | .u1 n     => tagged "u1" (.ofNat n.toNat)
  | .i2 n     => tagged "i2" (.ofInt n.toInt)
  | .u2 n     => tagged "u2" (.ofNat n.toNat)
  | .i4 n     => tagged "i4" (.ofInt n.toInt)
  | .u4 n     => tagged "u4" (.ofNat n.toNat)
  | .i8 n     => tagged "i8" (.decimal n.toInt)
  | .u8 n     => tagged "u8" (.decimal n.toNat)
  | .r4 b     => tagged "r4" (.hexBits 8 b.toNat)
  | .r8 b     => tagged "r8" (.hexBits 16 b.toNat)
  | .string s => tagged "string" (.string s)

/-- The value of the type called `k`. -/
def valueOfType (k : String) (v : Json) : ConstantValue :=
  match k with
  | "bool"   => .bool v.truth
  | "char"   => .char v.uint16
  | "i1"     => .i1 (Int8.ofInt v.number)
  | "u1"     => .u1 v.uint8
  | "i2"     => .i2 (Int16.ofInt v.number)
  | "u2"     => .u2 v.uint16
  | "i4"     => .i4 v.int32
  | "u4"     => .u4 v.uint32
  | "i8"     => .i8 v.int64
  | "u8"     => .u8 (UInt64.ofInt v.number)
  | "r4"     => .r4 v.hexNat.toUInt32
  | "r8"     => .r8 v.hexNat.toUInt64
  | "string" => .string v.bytes
  | _        => .null

/-- The characters of an ASCII name. -/
def keyName (k : Bytes) : String := String.ofList (k.map fun b => Char.ofNat b.toNat)

def value (v : Json) : ConstantValue :=
  match v.members with
  | [(k, v)] => valueOfType (keyName k) v
  | _        => .null

def ofConstant (c : Constant) : Json :=
  .object [entry "Type" (.ofNat c.type.toNat), entry "Value" (ofValue c.value)]

def constant (v : Json) : Constant := ⟨(v.dot "Type").uint8, value (v.dot "Value")⟩

/-- A constant that may be absent. -/
def constant? (v : Json) : Option Constant := v.opt.map constant

end Description

end CilCatalog
