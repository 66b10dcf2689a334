import CilCatalog.Constant
import CilCatalog.Proofs.SigTree.Format
import CilCatalog.Trial

/-!
# Trials of signature trees

Tokens, texts of trees and what is wrong with some of them, scopes, and the slots of primitive values.

Three of the expectations are made of many trees and values, and are settled for all of them: that a text is the text of a tree, that a text is kept when it is parsed and formatted again, and that a value comes back from its slot.  Every tree that can be formatted keeps its text, so the table of shapes is no more than a sample of what holds of all shapes.
-/

namespace CilCatalog.Trial.Trees

open SigTree (parse ofElement ofConvention)

/-! ### Parts and texts -/

/-- The node at the end of a path of argument numbers. -/
def part : List Nat → SigTree → Option SigTree
  | [],     t => some t
  | i :: p, t =>
      match t.args[i]? with
      | some a => part p a
      | none   => none

/-- The token at the end of a path. -/
def tokenAt (p : List Nat) (t : SigTree) : Option Token := (part p t).bind SigTree.token?

/-- The integer at the end of a path. -/
def int32At (p : List Nat) (t : SigTree) : Option Int32 := (part p t).bind SigTree.int32?

/-- Whether there is a node of an element type at the end of a path. -/
def elementAt (p : List Nat) (e : ElementType) (t : SigTree) : Bool :=
  (part p t).any (·.isElement e)

/-- Expects a tree to have a given text. -/
def hasText (t : SigTree) (text : Bytes) : Trial Unit := do
  let s ← certain t.requireText
  expect (s == text) ("formats as '" ++ s ++ "'")

/-- A tree that can be formatted is told apart by its text. -/
theorem decides_hasText {t : SigTree} {s : Bytes} (h : t.format = .ok s) (text : Bytes) :
    Decides (hasText t text) (s = text) := by
  have hs : Adds (certain t.requireText) s .empty := by
    rw [SigTree.requireText, h]
    exact adds_pure s
  exact hs.next rfl ((decides_expect _ _).congr beq_iff_eq)

/-- Expects a tree to have a given number of arguments. -/
def hasArguments (t : SigTree) (n : Nat) : Trial Unit :=
  expect (t.args.length == n)
    ("expected " ++ Bytes.decimal n ++ " arguments, got " ++ Bytes.decimal t.args.length)

/-! ### Trials -/

def tokens : Trial Unit := do
  let some named ← value (Token.ofName "Foo") | return
  expect (named.isNamed && named.text == utf8 "Foo") "named token lost its name"
  let three : Token := .index 3
  expect (three.text == utf8 "3") ("index token prints as '" ++ three.text ++ "'")
  refused (Token.ofName "") .invalidArgument
  refusedAll Token.ofName ["a(b", "a)b", "a,b", "a@b", "a'b"] .invalidArgument
  expect (Token.order named (.index 0) == .lt) "named token should order before an index"
  expect (Token.order (.index 1) (.index 2) == .lt) "indices should order numerically"

def integers : Trial Unit := do
  let some t ← value (parse "Int32(42)") | return
  expect (t.int32? == some 42) ("expected Int32 42, got " ++ t.display)
  hasText t "Int32(42)"
  if let some t ← value (parse "Int32(-7)") then
    expect (t.int32? == some (-7)) ("expected -7, got " ++ t.display)
  refused (parse "Int32(2147483648)") .invalidData
  refused (parse "Int32()") .invalidData

def arrayOfString : Trial Unit := do
  let some t ← value (parse "SZArray(String)") | return
  expect (t.isElement .szArray) ("expected an SZArray, got " ++ t.display)
  expect (t.args.length == 1 && elementAt [0] .string t) "expected a String element"
  expect (t == ofElement .szArray [ofElement .string]) "tree differs"
  hasText t "SZArray(String)"

def methodSignature : Trial Unit := do
  let text := "Default(Int32(0),Int32(1),Void,String)"
  let some t ← value (parse text) | return
  expect (t.kind == .callSig) "expected a calling convention signature"
  expect (CallingConvention.ofCode? t.code == some .standard) "wrong calling convention"
  hasArguments t 4
  expect (elementAt [2] .void t && elementAt [3] .string t) "wrong return or parameter type"
  hasText t text
  refused (parse "Default(Int32(0),Int32(2),Void,String)") .invalidData
  refused (parse "Default(Int32(0),Int32(0),Void,String)") .invalidData

/-- The marker in front of the variable parameters is in the tree, but not in the count. -/
def variableParameters : Trial Unit := do
  let text := "VarArg(Int32(0),Int32(2),Void,I4,Sentinel,String)"
  let some t ← value (parse text) | return
  hasArguments t 6
  expect (elementAt [4] .sentinel t) "expected the Sentinel at position 4"
  hasText t text
  refused (parse "VarArg(Int32(0),Int32(2),Void,I4,Sentinel,Sentinel,String)") .invalidData

def tokenLeaves : Trial Unit := do
  if let some t ← value (parse "Class('System.Object')") then
    expect ((tokenAt [0] t).any (·.text == utf8 "System.Object")) ("wrong token in " ++ t.display)
    hasText t "Class('System.Object')"
  if let some t ← value (parse "GenericInst(Class(5),Int32(2),I4,ValueType(7))") then
    expect (tokenAt [0, 0] t == some (.index 5)) ("wrong generic type in " ++ t.display)
    expect (tokenAt [3, 0] t == some (.index 7)) ("wrong argument in " ++ t.display)
  refused (parse "-1") .invalidData
  refused (parse "Class('a,b')") .invalidData
  refused (parse "Class('unterminated)") .invalidData

/-- Parsing comes to a tree or a refusal, whatever the text is. -/
theorem exists_parse (text : Bytes) :
    ∃ y : Except SigTree.ParseFault SigTree, parse text = y.mapError .fault := by
  match hp : parse text with
  | .ok t => exact ⟨.ok t, rfl⟩
  | .error e =>
      by_cases ht : text = []
      · subst ht
        cases hp
        exact ⟨.error _, rfl⟩
      · obtain ⟨f, rfl, -⟩ := SigTree.parse_invalid ht hp
        exact ⟨.error f, rfl⟩

theorem comes_parse (text : Bytes) :
    ∃ o : TrialOutcome SigTree, Comes (parse text) o ∧ ∀ t, o = .ok t ↔ parse text = .ok t := by
  obtain ⟨y, hy⟩ := exists_parse text
  exact ⟨ofFault y, comes_failure hy, fun t => by rw [ofFault_eq_ok, hy, mapError_eq_ok]⟩

/-- Malformed are the texts that spell no tree, unless there is no text at all. -/
theorem decides_refused_parse (text : Bytes) (ht : text ≠ []) :
    Decides (refused (parse text) .invalidData) (∀ t, parse text ≠ .ok t) := by
  obtain ⟨y, hy⟩ := exists_parse text
  refine (decides_refused (comes_failure hy) _).congr ?_
  cases y with
  | ok t => simp [hy]
  | error f =>
      obtain ⟨_, hf, hkind⟩ := SigTree.parse_invalid ht hy
      cases hf
      simp [hy, hkind, mapError_eq_ok]

/-- Malformed are the trees that have no text. -/
theorem decides_refused_format (t : SigTree) :
    Decides (refused t.format .invalidData) (¬ t.Formattable) := by
  refine (decides_refused (comes_except t.format) _).congr ?_
  rw [SigTree.Formattable]
  cases t.format with
  | ok s => simp
  | error f =>
      have hkind : Fault.kind f = .invalidData := rfl
      simp [hkind]

theorem decides_refusedAll_parse {texts : List Bytes} (h : [] ∉ texts) :
    Decides (refusedAll parse texts .invalidData) (∀ text ∈ texts, ∀ t, parse text ≠ .ok t) :=
  decides_refusedAll fun text ht => decides_refused_parse text fun hn => h (hn ▸ ht)

theorem decides_refusedAll_format (ts : List SigTree) :
    Decides (refusedAll SigTree.format ts .invalidData) (∀ t ∈ ts, ¬ t.Formattable) :=
  decides_refusedAll fun t _ => decides_refused_format t

def malformedTexts : Trial Unit := do
  refused (parse "") .invalidArgument
  refusedAll parse ["Foo", "SZArray(String", "SZArray(String,String)", "I4 I4", "Var(String)",
    "Array(I4,Int32(2),Int32(1))", "MethodSpec(1)"] .invalidData
  refused (SigTree.typeSig 0x99 []).format .invalidData
  refused (SigTree.wrapOperand NodeKind.token.code default) .invalidArgument

/-- Trees that are no parse of any text are noticed when they are formatted, at whatever depth. -/
def malformedTrees : Trial Unit := do
  let i4 := ofElement .i4
  let int := SigTree.int32
  let malformed := [
    ofElement .ptr,
    ofElement .i4 [int 1],
    ofElement .var [i4],
    ofElement .szArray [i4, i4],
    ofElement .array [i4, int 1, int 2, int 4],
    ofConvention .standard [int 0, int 1, i4],
    ofConvention .field [i4],
    ofConvention .localSig [int 0, int (-1)],
    ofElement .szArray [ofElement .byRef]]
  refusedAll SigTree.format malformed .invalidData
  let literal := ofElement .var [int (-1)]
  if let some _ ← value literal.format then
    hasText literal "Var(Int32(-1))"

/-- Texts of trees of all shapes. -/
def shapes : List String := [
  "Ptr(I4)",
  "ByRef(String)",
  "Pinned(ByRef(U1))",
  "SZArray(Object)",
  "ValueType(4)",
  "Class('System.Object')",
  "Var(Int32(0))",
  "MVar(Int32(1))",
  "FnPtr(Default(Int32(0),Int32(1),Void,I4))",
  "Array(R8,Int32(2),Int32(1),Int32(4),Int32(2),Int32(0),Int32(-1))",
  "Array(I4,Int32(1),Int32(0),Int32(0))",
  "GenericInst(Class(5),Int32(2),I4,MVar(Int32(0)))",
  "ValueArray(I2,Int32(16))",
  "CModReqd(3,I4)",
  "CModOpt('IsConst',Ptr(Char))",
  "Module(Int32(1),ValueType(2))",
  "Default(Int32(0),Int32(0),Void)",
  "Default(Int32(16),Int32(2),Int32(1),MVar(Int32(0)),MVar(Int32(1)))",
  "Default(Int32(32),Int32(2),Boolean,I4,U8)",
  "C(Int32(0),Int32(1),I,U)",
  "StdCall(Int32(0),Int32(0),Void)",
  "ThisCall(Int32(0),Int32(0),Void)",
  "FastCall(Int32(0),Int32(0),Void)",
  "Unmanaged(Int32(0),Int32(0),Void)",
  "NativeVarArg(Int32(0),Int32(1),Void,Sentinel,I4)",
  "VarArg(Int32(0),Int32(2),Void,I4,Sentinel,R8)",
  "Property(Int32(32),Int32(1),String,I4)",
  "Field(Int32(0),TypedByRef)",
  "LocalSig(Int32(0),Int32(3),I4,Pinned(ByRef(U1)),Class(2))",
  "LocalSig(Int32(0),Int32(0))",
  "GenericInstCC(Int32(0),Int32(2),String,Var(Int32(0)))",
  "MethodSpec(3,GenericInstCC(Int32(0),Int32(1),R4))",
  "InlineType(SZArray(Class(1)))",
  "InlineField('Program::count')",
  "InlineMethod(7)"]

/-- Expects the tree for a text to have that text, and the text to have that tree. -/
def keepsText (text : Bytes) : Trial Unit := do
  let some t ← value (parse text) | return
  let some out ← value t.format | return
  expect (out == text) ("'" ++ text ++ "' formats as '" ++ out ++ "'")
  if let some again ← value (parse out) then
    expect (again == t) ("'" ++ text ++ "' changed after reparsing")

/-- What is kept are the texts that trees are formatted as. -/
theorem decides_keepsText (text : Bytes) :
    Decides (keepsText text) (∃ t, parse text = .ok t ∧ t.format = .ok text) := by
  obtain ⟨o, ho, hparse⟩ := comes_parse text
  refine (decides_value (p := fun t => t.format = .ok text) ho (fun t _ => ?_) decides_pure).congr
    (exists_congr fun t => and_congr_left' (hparse t))
  refine (decides_value (p := (· = text)) (comes_except _) (fun out' h => ?_) decides_pure).congr ?_
  · obtain ⟨o', ho', hparse'⟩ := comes_parse out'
    have hagain := SigTree.parse_of_format (ofFault_eq_ok.1 h)
    refine ((decides_expect _ _).seq (decides_value (p := (· = t)) ho'
      (fun t' _ => (decides_expect _ _).congr beq_iff_eq) decides_pure)).congr ?_
    simp [hparse', hagain]
  · simp

/-- Every tree that can be formatted keeps its text. -/
theorem decides_keepsText_of_format {t : SigTree} {text : Bytes} (h : t.format = .ok text) :
    Decides (keepsText text) True :=
  (decides_keepsText text).congr (iff_true_intro ⟨t, SigTree.parse_of_format h, h⟩)

/-- Expects all of some texts to be kept. -/
def keepsTexts (texts : List Bytes) : Trial Unit := texts.forM keepsText

theorem decides_keepsTexts (texts : List Bytes) : Decides (keepsTexts texts)
    (∀ text ∈ texts, ∃ t, parse text = .ok t ∧ t.format = .ok text) :=
  .forM fun text _ => decides_keepsText text

def shapeTable : Trial Unit := keepsTexts (shapes.map utf8)

def arrayShape : Trial Unit := do
  let text := "Array(R8,Int32(2),Int32(1),Int32(4),Int32(2),Int32(0),Int32(-1))"
  let some t ← value (parse text) | return
  hasArguments t 7
  hasText t text

def inlineOperands : Trial Unit := do
  let some t ← value (parse "InlineMethod(MethodSpec(3,GenericInstCC(Int32(0),Int32(1),I4)))")
    | return
  expect (t.kind == .inlineMethod) "expected InlineMethod"
  expect ((part [0] t).any (·.kind == .methodSpec)) "expected a MethodSpec operand"
  expect (tokenAt [0, 0] t == some (.index 3)) "wrong method token"
  refused (parse "InlineType(1,2)") .invalidData

/-- The scope of the tree for a text. -/
def scopeOf (text : Bytes) : Trial (Option Token) := do
  let some t ← value (parse text) | return none
  return t.scope

def scopes : Trial Unit := do
  expect ((← scopeOf "SZArray(Class(3))") == some (.index 3)) "SZArray scope"
  expect ((← scopeOf "GenericInst(Class(5),Int32(1),I4)") == some (.index 5)) "GenericInst scope"
  expect ((← scopeOf "CModOpt(2,ByRef(ValueType(9)))") == some (.index 9)) "CModOpt scope"
  expect (← scopeOf "I4").isNone "I4 has no scope type"
  expect (← scopeOf "Var(Int32(0))").isNone "Var has no scope type"

/-- The slot of a value; what it warns of is noted. -/
def slotOf (v : ConstantValue) : Trial (Option Int64) := do
  warn v.slotWarning?.toList
  return v.slot?

/-- Expects a value to come back from its slot. -/
def survives (v : ConstantValue) (e : ElementType) : Trial Unit := do
  let slot ← slotOf v
  if ← check slot.isSome "value has no slot" then
    if let some back ← value (ConstantValue.ofSlot (slot.getD 0) e.code) then
      expect (back == v) (utf8 e.name ++ " did not survive its slot")

/-- A value survives if it has a slot and is what the slot is read as. -/
theorem decides_survives (v : ConstantValue) (e : ElementType) :
    Decides (survives v e)
      (∃ slot, v.slot? = some slot ∧ (ConstantValue.ofSlot slot e.code).result = .ok v) := by
  have hs : Adds (slotOf v) v.slot? ⟨[], v.slotWarning?.toList⟩ :=
    (adds_warn _).ends (adds_pure _)
  refine (hs.next rfl (decides_check (fun _ => decides_value (p := (· = v)) (comes_warned _)
    (fun back _ => (decides_expect _ _).congr beq_iff_eq) decides_pure)
    fun _ => decides_pure)).congr ?_
  cases v.slot? <;> simp

def slots : Trial Unit := do
  survives (.bool true) .boolean
  survives (.char (UInt16.ofNat 'x'.toNat)) .char
  survives (.i1 (-3)) .i1
  survives (.u2 0xFFFE) .u2
  survives (.i4 (-1)) .i4
  survives (.u8 0xFFFFFFFFFFFFFFFF) .u8
  survives (.r8 0x3FF8000000000000) .r8
  expect (← slotOf (.string "str")).isNone "strings have no slot"
  expect (← slotOf .null).isNone "null has no slot"
  refused (ConstantValue.ofSlot 0 ElementType.string.code) .invalidData

/-- Quiet numbers that are none keep their payloads, those of 32 bits through a slot of 64. -/
def payloads : Trial Unit := do
  let double : UInt64 := 0x7FF8000000001234
  let slot ← slotOf (.r8 double)
  expect (slot.map Int64.toUInt64 == some double) "double NaN payload changed in its slot"
  if let some slot := slot then
    if let some back ← value (ConstantValue.ofSlot slot ElementType.r8.code) then
      expect (back == .r8 double) "double NaN payload lost"
  let single : UInt32 := 0x7FC01234
  let slot ← slotOf (.r4 single)
  if ← check slot.isSome "float has no slot" then
    if let some back ← value (ConstantValue.ofSlot (slot.getD 0) ElementType.r4.code) then
      let bits := match back with
        | .r4 bits => bits
        | _        => 0
      expect (bits == single)
        ("float NaN payload changed to 0x" ++ Bytes.hexadecimal bits.toNat)

/-- All of these. -/
def suite : TrialSuite := [
  ⟨"Tokens", tokens⟩,
  ⟨"Int32 literal", integers⟩,
  ⟨"SZArray of String", arrayOfString⟩,
  ⟨"Method signature", methodSignature⟩,
  ⟨"Vararg Sentinel", variableParameters⟩,
  ⟨"Named and indexed tokens", tokenLeaves⟩,
  ⟨"Malformed text", malformedTexts⟩,
  ⟨"Malformed trees", malformedTrees⟩,
  ⟨"Shape table", shapeTable⟩,
  ⟨"Array shape", arrayShape⟩,
  ⟨"Inline operands", inlineOperands⟩,
  ⟨"Scope type", scopes⟩,
  ⟨"Primitive slots", slots⟩,
  ⟨"NaN bits", payloads⟩]

end CilCatalog.Trial.Trees
