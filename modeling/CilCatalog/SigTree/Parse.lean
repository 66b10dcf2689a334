import CilCatalog.SigTree.Format
import CilCatalog.SigTree.Lexeme

/-!
# Reading the text form

Lexemes become trees by recursive descent with one lexeme of lookahead.  The shape of an argument list is checked when its closing parenthesis has been passed; the offset such a message gives lies behind the lookahead.
-/

namespace CilCatalog

namespace SigTree

/-- What the reader can ask for. -/
inductive Expectation where
  | tree | openParen | closeParen | commaOrClose | integer | nonNegative | endOfInput
deriving DecidableEq, Repr

def Expectation.describe : Expectation → String
  | tree         => "a complex type"
  | openParen    => "'('"
  | closeParen   => "')'"
  | commaOrClose => "',' or ')'"
  | integer      => "integer"
  | nonNegative  => "a non-negative token index"
  | endOfInput   => "end of input"

/-- Why a text spells no tree. -/
inductive ParseFault where
  | emptyText
  | lexical (f : LexFault) (offset : Nat)
  | expected (what : Expectation) (got : LexemeKind) (offset : Nat)
  | badName (name : Bytes) (offset : Nat)
  | unknownWord (word : Bytes) (offset : Nat)
  | specArity (got offset : Nat)
  | operandArity (k : OperandKind) (got offset : Nat)
  | shape (f : ShapeFault) (offset : Nat)
deriving DecidableEq, Repr

namespace ParseFault

/-- A message with the place it is about. -/
def located (message : Bytes) (offset : Nat) : Bytes :=
  message ++ " (at offset " ++ Bytes.decimal offset ++ ")"

def message : ParseFault → Bytes
  | emptyText         => "Complex type text cannot be empty"
  | lexical f o       => located f.message o
  | expected w g o    => located ("Expected " ++ w.describe ++ ", got " ++ g.describe) o
  | badName n o       => located ("Invalid token name '" ++ n ++ "'") o
  | unknownWord w o   => located ("Invalid complex type beginning '" ++ w ++ "'") o
  | specArity g o     => located ("'MethodSpec' takes 2 arguments, got " ++ Bytes.decimal g) o
  | operandArity k g o =>
      located ("'" ++ k.name ++ "' takes 1 argument, got " ++ Bytes.decimal g) o
  | shape f o         => located f.message o

instance : Fault ParseFault where
  kind
    | .emptyText => .invalidArgument
    | _          => .invalidData
  message := message

end ParseFault

/-- Reading that may fail. -/
abbrev ParseM := Except (Failure ParseFault)

namespace Parse

def fail {α : Type} (f : ParseFault) : ParseM α := .error (.fault f)

/-- The lookahead; the end of the input is never passed. -/
def look (ls : List Lexeme) : Lexeme := ls.headD ⟨.endOfInput, 0, 0⟩

/-- The lookahead is not what was asked for. -/
def unexpected {α : Type} (what : Expectation) (ls : List Lexeme) : ParseM α :=
  match (look ls).kind with
  | .fault f => fail (.lexical f (look ls).start)
  | k        => fail (.expected what k (look ls).start)

/-- Past a lexeme of kind `k`, which has to be there. -/
def expect (k : LexemeKind) (what : Expectation) (ls : List Lexeme) :
    ParseM (List Lexeme) :=
  if (look ls).kind = k then .ok ls.tail else unexpected what ls

/-- The integer in parentheses behind the word for integers. -/
def literal (ls : List Lexeme) : ParseM (SigTree × List Lexeme) := do
  let ls ← expect .open .openParen ls
  match (look ls).kind with
  | .integer v => do
      let ls ← expect .close .closeParen ls.tail
      return (int32 v, ls)
  | _ => unexpected .integer ls

/-- The node that `word` and its arguments make; `offset` is where messages point. -/
def node (word : Bytes) (as : List SigTree) (offset : Nat) : ParseM SigTree :=
  match ElementType.ofName? word with
  | some e =>
      match e.checkArgs as with
      | .ok _    => .ok (ofElement e as)
      | .error f => fail (.shape f offset)
  | none =>
      match CallingConvention.ofName? word with
      | some k =>
          match k.checkArgs as with
          | .ok _    => .ok (ofConvention k as)
          | .error f => fail (.shape f offset)
      | none =>
          match OperandKind.ofName? word with
          | some k =>
              match as with
              | [o] => .ok (inline k o)
              | _   => fail (.operandArity k as.length offset)
          | none =>
              match as with
              | [m, i] => .ok (methodSpec m i)
              | _      => fail (.specArity as.length offset)

/-- What a word asks for behind it. -/
inductive WordClass where
  /-- Nothing: the word is the whole tree. -/
  | leaf (e : ElementType)
  /-- An integer in parentheses. -/
  | literal
  /-- Arguments. -/
  | node
  /-- The word begins no tree. -/
  | unknown
deriving DecidableEq, Repr

/-- What the word `w` asks for. -/
def wordClass (w : Bytes) : WordClass :=
  match ElementType.ofName? w with
  | some e => if e.isLeaf then .leaf e else .node
  | none   =>
      if (CallingConvention.ofName? w).isSome then .node
      else if w = NodeKind.int32.name then .literal
      else if w = NodeKind.methodSpec.name || (OperandKind.ofName? w).isSome then .node
      else .unknown

mutual

/-- A tree at the front: a token, or a word with its arguments.  A unit of `fuel` pays for a call, and there are no more calls than lexemes. -/
def tree : Nat → List Lexeme → ParseM (SigTree × List Lexeme)
  | 0,        _  => .error .unexplained
  | fuel + 1, ls =>
      match (look ls).kind with
      | .integer i =>
          if i < 0 then unexpected .nonNegative ls
          else do return (← SigTree.ofToken (.index i), ls.tail)
      | .name n =>
          match Token.ofName n with
          | .ok t    => do return (← SigTree.ofToken t, ls.tail)
          | .error _ => fail (.badName n (look ls).start)
      | .word w =>
          match wordClass w with
          | .leaf e  => .ok (ofElement e, ls.tail)
          | .literal => literal ls.tail
          | .node    => do
              let (as, ls) ← arguments fuel ls.tail
              return (← node w as (look ls).stop, ls)
          | .unknown => fail (.unknownWord w (look ls).start)
      | _ => unexpected .tree ls

/-- Arguments in parentheses. -/
def arguments : Nat → List Lexeme → ParseM (List SigTree × List Lexeme)
  | 0,        _  => .error .unexplained
  | fuel + 1, ls => do
      let ls ← expect .open .openParen ls
      let (as, ls) ← items fuel ls
      let ls ← expect .close .commaOrClose ls
      return (as, ls)

/-- One tree or more, between commas. -/
def items : Nat → List Lexeme → ParseM (List SigTree × List Lexeme)
  | 0,        _  => .error .unexplained
  | fuel + 1, ls => do
      let (a, ls) ← tree fuel ls
      if (look ls).kind = .comma then do
        let (as, ls) ← items fuel ls.tail
        return (a :: as, ls)
      else return ([a], ls)

end

end Parse

/-- The tree that a text spells. -/
def parse (s : Bytes) : ParseM SigTree :=
  if s.isEmpty then Parse.fail .emptyText
  else do
    let ls := Lexeme.scan s
    let (t, ls) ← Parse.tree (2 * ls.length + 1) ls
    if (Parse.look ls).kind = .endOfInput then return t else Parse.unexpected .endOfInput ls

end SigTree

end CilCatalog
