import CilCatalog.Writing.Definition

/-!
# Writing method bodies

All instructions are there before any operand is, so that branches may lead forward; an instruction number must be one of the body's.
-/

namespace CilCatalog.Writing

open Live (OpCode Target)

/-- The instruction with number `n`, in a body of `size` instructions. -/
def target (size : Nat) (n : Int32) : Writing Target :=
  if 0 ≤ n ∧ n.toNatClampNeg < size then return .inside n.toNatClampNeg
  else refuse (.instructionIndex n)

/-- The instruction at a boundary that may be absent. -/
def boundary (size : Nat) (n : Int32) : Writing Target :=
  if n = ExceptionHandler.absent then return .null else target size n

/-- What an opcode that takes a variable refers to, in a body of `count` local variables. -/
def variableOperand (count : Nat) (op : OpCode) (n : Int32) : Writing Live.Operand :=
  if n < 0 then refuse (.negativeVariable n op)
  else if op.takesArgument then return .argument n.toUInt32
  else if n.toNatClampNeg < count then return .variable (some n.toUInt32)
  else refuse (.localIndex n op)

/-- The octet for how a handler is entered: by an exception's type, by a filter, always, or by any exception. -/
def handlerType (n : Int32) : Writing UInt8 :=
  if n = 0 ∨ n = 1 ∨ n = 2 ∨ n = 4 then return n.toUInt32.toUInt8 else refuse (.handlerType n)

section

variable (c : Catalog)

/-- What the tree of a token operand stands for. -/
def tokenOperand : SigTree → Writing Live.Operand
  | .callSig code as => do
      let sig ← callSigOf c (.callSig code as)
      askable sig.isNull
      if sig.isMethod || sig.isLocals then return .signature sig else refuse .signatureOperand
  | .inline .type t => do return .row (← rowOfTree c t)
  | .inline .field (.token t) => do return .row (← fieldOfToken c t)
  | .inline .field _ => refuse .fieldOperand
  | .inline .method (.token t) => do return .row (← methodOfToken c t)
  | .inline .method (.methodSpec (.token t) i) => do
      let method ← methodOfToken c t
      let sig ← callSigOf c i
      askable sig.isNull
      if sig.isInst then return .row (← making fun _ s => s.createMethodSpec method sig)
      else refuse .instantiation
  | .inline .method _ => refuse .methodOperand
  | t => refuse (.operandKind t.kind.name)

/-- The operand of an instruction, which must be of the type that the opcode takes. -/
def operand (size count : Nat) (op : OpCode) (o : Option Operand) : Writing Live.Operand :=
  match op.operandType, o with
  | .inlineBrTarget, some (.int32 n) | .shortInlineBrTarget, some (.int32 n) => do
      return .target (← target size n)
  | .inlineSwitch, some (.targets ns) => do return .targets (← ns.mapM (target size))
  | .inlineField, some (.tree t) | .inlineMethod, some (.tree t) | .inlineSig, some (.tree t)
  | .inlineTok, some (.tree t) | .inlineType, some (.tree t) => tokenOperand c t
  | .inlineVar, some (.int32 n) | .shortInlineVar, some (.int32 n) =>
      variableOperand count op n
  | .inlineI, some (.int32 n) | .shortInlineI, some (.int32 n) => return .int32 n
  | .inlineI8, some (.int64 n)       => return .int64 n
  | .shortInlineR, some (.single b)  => return .single b
  | .inlineR, some (.double b)       => return .double b
  | .inlineString, some (.string t)  => return .string t
  | .inlineNone, none                => return .none
  | .inlinePhi, _                    => refuse (.unsupportedOpCode op)
  | _, _                             => refuse (.operandMismatch op)

/-- The opcode of a new instruction, which must have one. -/
def requireOpCode : Option OpCode → Except (Failure WriteFault) OpCode
  | some op => .ok op
  | none    => .error (.breach "Instruction without an opcode")

def opCode (i : Instruction) : Writing (OpCode × Option Operand) := do
  let op := OpCode.ofName? i.opcode
  if op.isNone then refuse (.unknownOpCode i.opcode)
  return (← MonadExcept.ofExcept (requireOpCode op), i.operand)

def handler (size : Nat) (h : ExceptionHandler) : Writing Live.ExceptionHandler := do
  let tryStart ← target size h.tryStart
  let tryEnd ← boundary size h.tryEnd
  let filterStart ← boundary size h.filterStart
  let handlerStart ← target size h.handlerStart
  let handlerEnd ← boundary size h.handlerEnd
  let type ← handlerType h.handlerType
  let catchType ← match h.catchType with
    | none   => pure .null
    | some t => rowOfTree c t
  return ⟨tryStart, tryEnd, filterStart, handlerStart, handlerEnd, catchType, type⟩

def body (b : MethodBody) : Writing Live.MethodBody := do
  if b.maxStack < 0 ∨ 0xFFFF < b.maxStack then refuse (.maxStack b.maxStack)
  let locals ← typeSigsOf c b.locals
  let ops ← b.instructions.mapM opCode
  let instructions ← ops.mapM fun (op, o) => do
    return (⟨op, ← operand c ops.length locals.length op o⟩ : Live.Instruction)
  let handlers ← b.handlers.mapM (handler c ops.length)
  return ⟨instructions, handlers, locals, low16 b.maxStack, b.initLocals⟩

end

end CilCatalog.Writing
