import CilCatalog.Reading.Definition

/-!
# Reading method bodies

Branches and the boundaries of protected regions turn into instruction numbers, local variables and arguments into their numbers, and rows and signatures in operands into trees.
-/

namespace CilCatalog.Reading

open Live (Target OpCode)

/-- The number of the instruction that a branch points at, in a body of `size` instructions. -/
def targetIndex (size : Nat) : Target → Reading Int32
  | .inside n => if n < size then return Int32.ofNat n else refuse .foreignTarget
  | _         => refuse .foreignTarget

/-- The number of the instruction at a boundary that may be missing. -/
def boundaryIndex (size : Nat) : Target → Reading Int32
  | .null => return ExceptionHandler.absent
  | t     => targetIndex size t

section

variable (s : Live.Store)

/-- The tree for a row as operand. -/
def rowOperand (r : Live.Row) : Reading SigTree :=
  match r with
  | .null => refuse .missingOperand
  | .fieldDef _ => do return .inline .field (.token (← fieldToken s r))
  | .methodDef _ => do return .inline .method (.token (← methodToken s r))
  | .memberRef _ _ signature _ => do
      if ← MonadExcept.ofExcept signature.ofFieldMember then return .inline .field (.token (← fieldToken s r))
      else return .inline .method (.token (← methodToken s r))
  | .methodSpec _ method instantiation => do
      let token ← methodToken s method
      return .inline .method (.methodSpec (.token token) (← callSigTree s instantiation))
  | _ => do
      if r.isType then return .inline .type (← typeTree s r)
      else refuse (.rowOperand r.kindName)

/-- The tree for the operand of an opcode that takes a token. -/
def tokenOperand : Live.Operand → Reading SigTree
  | .row r       => rowOperand s r
  | .signature c =>
      if c.isNull then refuse .missingOperand
      else if c.isMethod || c.isLocals then callSigTree s c
      else refuse .signatureOperand
  | _            => refuse .missingOperand

/-- The operand of an instruction in a body of `size` instructions.  It must be of the type that the opcode takes. -/
def operand (size : Nat) (op : OpCode) (o : Live.Operand) : Reading (Option Operand) :=
  match op.operandType, o with
  | .inlineBrTarget, .target t | .shortInlineBrTarget, .target t => do
      return some (.int32 (← targetIndex size t))
  | .inlineSwitch, .targets ts => do return some (.targets (← ts.mapM (targetIndex size)))
  | .inlineField, o | .inlineMethod, o | .inlineSig, o | .inlineTok, o | .inlineType, o => do
      return some (.tree (← tokenOperand s o))
  | .inlineVar, .variable (some n) | .shortInlineVar, .variable (some n) =>
      return some (.int32 n.toInt32)
  | .inlineVar, .argument n | .shortInlineVar, .argument n => return some (.int32 n.toInt32)
  | .inlineI, .int32 n | .shortInlineI, .int32 n => return some (.int32 n)
  | .inlineI8, .int64 n      => return some (.int64 n)
  | .shortInlineR, .single b => return some (.single b)
  | .inlineR, .double b      => return some (.double b)
  | .inlineString, .string t => return some (.string t)
  | .inlineNone, .none       => return none
  | .inlinePhi, _            => refuse (.unsupportedOpCode op)
  | _, _                     => refuse (.operandMismatch op)

def instruction (size : Nat) (i : Live.Instruction) : Reading Instruction := do
  return ⟨i.opcode.name, ← operand s size i.opcode i.operand⟩

def handler (size : Nat) (h : Live.ExceptionHandler) : Reading ExceptionHandler := do
  let tryStart ← targetIndex size h.tryStart
  let tryEnd ← boundaryIndex size h.tryEnd
  let filterStart ← boundaryIndex size h.filterStart
  let handlerStart ← targetIndex size h.handlerStart
  let handlerEnd ← boundaryIndex size h.handlerEnd
  let catchType ←
    if h.catchType.isNull then pure none else some <$> typeTree s h.catchType
  return ⟨tryStart, tryEnd, filterStart, handlerStart, handlerEnd, catchType,
    Int32.ofNat h.handlerType.toNat⟩

def body (b : Live.MethodBody) : Reading MethodBody := do
  let size := b.instructions.length
  let instructions ← b.instructions.mapM (instruction s size)
  let handlers ← b.handlers.mapM (handler s size)
  let locals ← typeSigTrees s b.locals
  return ⟨instructions, handlers, locals, Int32.ofNat b.maxStack.toNat, b.initLocals⟩

end

end CilCatalog.Reading
