import CilCatalog.Failure
import CilCatalog.Json.Lexeme
import CilCatalog.Json.Value

/-!
# Reading JSON text

Lexemes become values by recursive descent with one lexeme of lookahead.  The members of an object must have different names, and arrays and objects nest at most `maxDepth` deep.
-/

namespace CilCatalog

namespace Json

/-- How deep arrays and objects may nest. -/
def maxDepth : Nat := 512

/-- What the reader can ask for. -/
inductive Expectation where
  | value | memberName | colon | commaOrBracket | commaOrBrace | endOfInput
deriving DecidableEq, Repr

def Expectation.describe : Expectation → String
  | value          => "a value"
  | memberName     => "member name"
  | colon          => "':'"
  | commaOrBracket => "',' or ']'"
  | commaOrBrace   => "',' or '\x7d'"
  | endOfInput     => "end of input"

/-- Why a text spells no value. -/
inductive ParseFault where
  | lexical (f : LexFault) (offset : Nat)
  | expected (what : Expectation) (got : LexemeKind) (offset : Nat)
  | repeatedMember (name : Bytes) (offset : Nat)
  | tooDeep (offset : Nat)
deriving DecidableEq, Repr

namespace ParseFault

/-- A message with the place it is about. -/
def located (message : Bytes) (offset : Nat) : Bytes :=
  message ++ " (at offset " ++ Bytes.decimal offset ++ ")"

def message : ParseFault → Bytes
  | lexical f o        => located f.message o
  | expected w g o     => located ("Expected " ++ w.describe ++ ", got " ++ g.describe) o
  | repeatedMember n o => located ("Duplicate member '" ++ n ++ "'") o
  | tooDeep o          => located "Nesting too deep" o

instance : Fault ParseFault where
  kind _ := .invalidData
  message := message

end ParseFault

/-- Reading that may fail. -/
abbrev ParseM := Except (Failure ParseFault)

namespace Parse

def fail {α : Type} (f : ParseFault) : ParseM α := .error (.fault f)

/-- The lookahead; the end of the input is never passed. -/
def look (ls : List Lexeme) : Lexeme := ls.headD ⟨.endOfInput, 0, 0⟩

/-- The lookahead is not what was asked for. -/
def unexpected {α : Type} (what : Expectation) (ls : List Lexeme) : ParseM α :=
  match (look ls).kind with
  | .fault f => fail (.lexical f (look ls).start)
  | k        => fail (.expected what k (look ls).start)

/-- Past a lexeme of kind `k`, which has to be there. -/
def expect (k : LexemeKind) (what : Expectation) (ls : List Lexeme) : ParseM (List Lexeme) :=
  if (look ls).kind = k then .ok ls.tail else unexpected what ls

mutual

/-- A value at the front, inside `depth` arrays and objects.  A unit of `fuel` pays for a call, and there are no more calls than lexemes. -/
def value : Nat → Nat → List Lexeme → ParseM (Json × List Lexeme)
  | 0,        _,     _  => .error .unexplained
  | fuel + 1, depth, ls =>
      match (look ls).kind with
      | .true        => .ok (bool true, ls.tail)
      | .false       => .ok (bool false, ls.tail)
      | .null        => .ok (null, ls.tail)
      | .integer i   => .ok (int i, ls.tail)
      | .string s    => .ok (string s, ls.tail)
      | .openBracket =>
          if maxDepth < depth + 1 then fail (.tooDeep (look ls).stop)
          else if (look ls.tail).kind = .closeBracket then .ok (array [], ls.tail.tail)
          else do
            let (es, ls) ← elements fuel (depth + 1) ls.tail
            let ls ← expect .closeBracket .commaOrBracket ls
            return (array es, ls)
      | .openBrace   =>
          if maxDepth < depth + 1 then fail (.tooDeep (look ls).stop)
          else if (look ls.tail).kind = .closeBrace then .ok (object [], ls.tail.tail)
          else do
            let (ms, ls) ← members fuel (depth + 1) [] ls.tail
            let ls ← expect .closeBrace .commaOrBrace ls
            return (object ms, ls)
      | _ => unexpected .value ls

/-- One value or more, between commas. -/
def elements : Nat → Nat → List Lexeme → ParseM (List Json × List Lexeme)
  | 0,        _,     _  => .error .unexplained
  | fuel + 1, depth, ls => do
      let (e, ls) ← value fuel depth ls
      if (look ls).kind = .comma then do
        let (es, ls) ← elements fuel depth ls.tail
        return (e :: es, ls)
      else return ([e], ls)

/-- One member or more, between commas, none called like one of `seen`. -/
def members : Nat → Nat → List Bytes → List Lexeme →
    ParseM (List (Bytes × Json) × List Lexeme)
  | 0,        _,     _,    _  => .error .unexplained
  | fuel + 1, depth, seen, ls =>
      match (look ls).kind with
      | .string k =>
          if k ∈ seen then fail (.repeatedMember k (look ls.tail).stop)
          else do
            let ls ← expect .colon .colon ls.tail
            let (v, ls) ← value fuel depth ls
            if (look ls).kind = .comma then do
              let (ms, ls) ← members fuel depth (k :: seen) ls.tail
              return ((k, v) :: ms, ls)
            else return ([(k, v)], ls)
      | _ => unexpected .memberName ls

end

end Parse

/-- The value that a text spells. -/
def parse (s : Bytes) : ParseM Json := do
  let ls := Lexeme.scan s
  let (v, ls) ← Parse.value (2 * ls.length + 1) 0 ls
  if (Parse.look ls).kind = .endOfInput then return v else Parse.unexpected .endOfInput ls

end Json

end CilCatalog
