import CilCatalog.CallingConvention
import CilCatalog.ElementType
import CilCatalog.Token

/-!
# Signature trees

The portable form of signatures.  A tree stands for a type signature, a calling-convention signature, a token, an integer inside a signature, an instantiated generic method, or the token operand of an instruction.  Codes are kept raw, so that a tree may hold a code no name exists for; `SigTree.format` is where such a tree is refused.
-/

namespace CilCatalog

/-- What the token operand of an instruction names. -/
inductive OperandKind where
  | type | field | method
deriving DecidableEq, Repr

/-- A node of a signature with everything below it. -/
inductive SigTree where
  | token (t : Token)
  | typeSig (code : UInt8) (args : List SigTree)
  | callSig (code : UInt8) (args : List SigTree)
  | int32 (value : Int32)
  | methodSpec (method instantiation : SigTree)
  | inline (kind : OperandKind) (operand : SigTree)

/-- The eight kinds of node. -/
inductive NodeKind where
  | token | typeSig | callSig | int32 | methodSpec | inlineType | inlineField | inlineMethod
deriving DecidableEq, Repr

namespace NodeKind

def code : NodeKind → Nat
  | token        => 0
  | typeSig      => 1
  | callSig      => 2
  | int32        => 3
  | methodSpec   => 4
  | inlineType   => 5
  | inlineField  => 6
  | inlineMethod => 7

def name : NodeKind → String
  | token        => "Token"
  | typeSig      => "TypeSig"
  | callSig      => "CallingConventionSig"
  | int32        => "Int32"
  | methodSpec   => "MethodSpec"
  | inlineType   => "InlineType"
  | inlineField  => "InlineField"
  | inlineMethod => "InlineMethod"

def all : List NodeKind :=
  [token, typeSig, callSig, int32, methodSpec, inlineType, inlineField, inlineMethod]

/-- The node kind with code `n`. -/
def ofCode? (n : Nat) : Option NodeKind := all.find? (·.code == n)

/-- The name of node kind `n`; a number without a kind has a name of its own. -/
def nameOfCode (n : Nat) : String := ((ofCode? n).map name).getD "<invalid>"

/-- What a node of this kind wraps, if it is the operand of an instruction. -/
def operand? : NodeKind → Option OperandKind
  | inlineType   => some .type
  | inlineField  => some .field
  | inlineMethod => some .method
  | _            => none

theorem ofCode?_code (k : NodeKind) : ofCode? k.code = some k := by
  cases k <;> decide

end NodeKind

namespace OperandKind

def node : OperandKind → NodeKind
  | type   => .inlineType
  | field  => .inlineField
  | method => .inlineMethod

/-- The name of the node that wraps an operand of this kind. -/
def name (k : OperandKind) : String := k.node.name

def all : List OperandKind := [type, field, method]

/-- The operand kind whose node is called `n`. -/
def ofName? (n : Bytes) : Option OperandKind := all.find? (utf8 ·.name == n)

theorem ofName?_name (k : OperandKind) : ofName? k.name = some k := by
  cases k <;> decide

theorem name_of_ofName? {n : Bytes} {k : OperandKind} (h : ofName? n = some k) :
    utf8 k.name = n := by
  simpa using List.find?_some h

end OperandKind

namespace SigTree

instance : Inhabited SigTree := ⟨token (.index 0)⟩

def kind : SigTree → NodeKind
  | token _        => .token
  | typeSig _ _    => .typeSig
  | callSig _ _    => .callSig
  | int32 _        => .int32
  | methodSpec _ _ => .methodSpec
  | inline k _     => k.node

/-- The nodes directly below. -/
def args : SigTree → List SigTree
  | token _        => []
  | typeSig _ as   => as
  | callSig _ as   => as
  | int32 _        => []
  | methodSpec m i => [m, i]
  | inline _ o     => [o]

/-- The raw code of a signature node. -/
def code : SigTree → UInt8
  | typeSig c _ => c
  | callSig c _ => c
  | _           => 0

/-! ### Construction -/

/-- A type signature of element type `e`. -/
def ofElement (e : ElementType) (as : List SigTree := []) : SigTree := typeSig e.code as

/-- A signature of calling convention `c`. -/
def ofConvention (c : CallingConvention) (as : List SigTree) : SigTree := callSig c.code as

/-- The leaf that names `t`, whose index must not be negative. -/
def ofToken {φ : Type} : Token → Except (Failure φ) SigTree
  | .named n => .ok (token (.named n))
  | .index i =>
      if i < 0 then .error (.breach ("Negative token index " ++ Bytes.signedDecimal i.toInt))
      else .ok (token (.index i))

/-- The node kind asked for does not wrap operands. -/
structure OperandFault where
  kindName : String
deriving DecidableEq, Repr

instance : Fault OperandFault where
  kind _ := .invalidArgument
  message f := "'" ++ f.kindName ++ "' is not an inline token operand kind"

/-- The node of kind number `n` around an operand. -/
def wrapOperand (n : Nat) (operand : SigTree) : Except OperandFault SigTree :=
  match (NodeKind.ofCode? n).bind NodeKind.operand? with
  | some k => .ok (inline k operand)
  | none   => .error ⟨NodeKind.nameOfCode n⟩

/-! ### Parts -/

/-- There is no argument with number `i`. -/
def outOfRange {φ : Type} (i : Nat) : Failure φ :=
  .breach ("Argument index " ++ Bytes.decimal i ++ " out of range")

/-- Argument number `i`, which must exist. -/
def arg {φ : Type} (t : SigTree) (i : Nat) : Except (Failure φ) SigTree :=
  match t.args[i]? with
  | some a => .ok a
  | none   => .error (outOfRange i)

/-- The value of an integer node. -/
def requireInt32 {φ : Type} : SigTree → Except (Failure φ) Int32
  | int32 v => .ok v
  | _       => .error (.breach "ComplexType is not an Int32 literal")

/-- The token of a token node. -/
def token? : SigTree → Option Token
  | token t => some t
  | _       => none

/-- The value of an integer node, if this is one. -/
def int32? : SigTree → Option Int32
  | int32 v => some v
  | _       => none

/-- Whether the node is a type signature of element type `e`. -/
def isElement (e : ElementType) : SigTree → Bool
  | typeSig c _ => c == e.code
  | _           => false

/-- Whether the node is the marker in front of the variable parameters. -/
def isSentinel (t : SigTree) : Bool := t.isElement .sentinel

/-! ### Induction -/

section Induction

variable {P : SigTree → Prop}

mutual

/-- What holds of a tree if it holds of the nodes directly below, holds of every tree. -/
theorem induction (h : ∀ t : SigTree, (∀ a ∈ t.args, P a) → P t) : ∀ t, P t
  | token _        => h _ (List.forall_mem_nil _)
  | typeSig _ as   => h _ (inductionAll h as)
  | callSig _ as   => h _ (inductionAll h as)
  | int32 _        => h _ (List.forall_mem_nil _)
  | methodSpec m i => h _ (List.forall_mem_cons.2
      ⟨induction h m, List.forall_mem_cons.2 ⟨induction h i, List.forall_mem_nil _⟩⟩)
  | inline _ o     => h _ (List.forall_mem_cons.2 ⟨induction h o, List.forall_mem_nil _⟩)

theorem inductionAll (h : ∀ t : SigTree, (∀ a ∈ t.args, P a) → P t) :
    ∀ as : List SigTree, ∀ a ∈ as, P a
  | []      => List.forall_mem_nil _
  | a :: as => List.forall_mem_cons.2 ⟨induction h a, inductionAll h as⟩

end

end Induction

/-! ### Equality -/

mutual

def decEq : (a b : SigTree) → Decidable (a = b)
  | token s, token t =>
      if h : s = t then isTrue (by rw [h]) else isFalse (by simp [h])
  | int32 v, int32 w =>
      if h : v = w then isTrue (by rw [h]) else isFalse (by simp [h])
  | typeSig c as, typeSig d bs =>
      if h : c = d then
        match decEqList as bs with
        | isTrue h'  => isTrue (by rw [h, h'])
        | isFalse h' => isFalse (by simp [h'])
      else isFalse (by simp [h])
  | callSig c as, callSig d bs =>
      if h : c = d then
        match decEqList as bs with
        | isTrue h'  => isTrue (by rw [h, h'])
        | isFalse h' => isFalse (by simp [h'])
      else isFalse (by simp [h])
  | methodSpec m i, methodSpec n j =>
      match decEq m n, decEq i j with
      | isTrue h,  isTrue h'  => isTrue (by rw [h, h'])
      | isFalse h, _          => isFalse (by simp [h])
      | _,         isFalse h' => isFalse (by simp [h'])
  | inline k o, inline l p =>
      if h : k = l then
        match decEq o p with
        | isTrue h'  => isTrue (by rw [h, h'])
        | isFalse h' => isFalse (by simp [h'])
      else isFalse (by simp [h])
  | token _, typeSig _ _ => isFalse nofun
  | token _, callSig _ _ => isFalse nofun
  | token _, int32 _ => isFalse nofun
  | token _, methodSpec _ _ => isFalse nofun
  | token _, inline _ _ => isFalse nofun
  | typeSig _ _, token _ => isFalse nofun
  | typeSig _ _, callSig _ _ => isFalse nofun
  | typeSig _ _, int32 _ => isFalse nofun
  | typeSig _ _, methodSpec _ _ => isFalse nofun
  | typeSig _ _, inline _ _ => isFalse nofun
  | callSig _ _, token _ => isFalse nofun
  | callSig _ _, typeSig _ _ => isFalse nofun
  | callSig _ _, int32 _ => isFalse nofun
  | callSig _ _, methodSpec _ _ => isFalse nofun
  | callSig _ _, inline _ _ => isFalse nofun
  | int32 _, token _ => isFalse nofun
  | int32 _, typeSig _ _ => isFalse nofun
  | int32 _, callSig _ _ => isFalse nofun
  | int32 _, methodSpec _ _ => isFalse nofun
  | int32 _, inline _ _ => isFalse nofun
  | methodSpec _ _, token _ => isFalse nofun
  | methodSpec _ _, typeSig _ _ => isFalse nofun
  | methodSpec _ _, callSig _ _ => isFalse nofun
  | methodSpec _ _, int32 _ => isFalse nofun
  | methodSpec _ _, inline _ _ => isFalse nofun
  | inline _ _, token _ => isFalse nofun
  | inline _ _, typeSig _ _ => isFalse nofun
  | inline _ _, callSig _ _ => isFalse nofun
  | inline _ _, int32 _ => isFalse nofun
  | inline _ _, methodSpec _ _ => isFalse nofun

def decEqList : (as bs : List SigTree) → Decidable (as = bs)
  | [], []           => isTrue rfl
  | [], _ :: _       => isFalse nofun
  | _ :: _, []       => isFalse nofun
  | a :: as, b :: bs =>
      match decEq a b, decEqList as bs with
      | isTrue h,  isTrue h'  => isTrue (by rw [h, h'])
      | isFalse h, _          => isFalse (by simp [h])
      | _,         isFalse h' => isFalse (by simp [h'])

end

instance : DecidableEq SigTree := decEq

/-! ### Scope types

A member may be declared on an instantiated or modified type.  Its scope is then the type token such a signature is built on. -/

/-- Which argument of an element type leads on to its scope: the first, or, behind a modifier, the second. -/
def scopeArg : ElementType → Option Nat
  | .ptr | .byRef | .array | .genericInst | .valueArray | .szArray | .pinned => some 0
  | .cmodReqd | .cmodOpt => some 1
  | _ => none

mutual

/-- The token at the root of a type signature. -/
def scope : SigTree → Option Token
  | typeSig c as =>
      match ElementType.ofCode? c with
      | some .valueType | some .cls => as.head?.bind token?
      | some e =>
          match scopeArg e with
          | some n => scopeAt n as
          | none   => none
      | none => none
  | _ => none

/-- The scope of tree number `n` of a list. -/
def scopeAt : Nat → List SigTree → Option Token
  | _,     []      => none
  | 0,     a :: _  => scope a
  | n + 1, _ :: as => scopeAt n as

end

end SigTree

end CilCatalog
