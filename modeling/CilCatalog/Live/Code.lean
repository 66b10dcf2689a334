import CilCatalog.Live.OpCode
import CilCatalog.Live.Signature

/-!
# Method bodies of a live module

A body is a list of instructions.  Branches and the boundaries of protected regions point at instructions, local variables at the list of locals; a pointer may also be missing, or lead outside the body.
-/

namespace CilCatalog.Live

/-- What a branch, or the boundary of a region, points at. -/
inductive Target where
  | null
  /-- An instruction of the body, by its position. -/
  | inside (position : Nat)
  /-- An instruction of no body at hand. -/
  | outside
deriving DecidableEq, Repr, Inhabited

/-- The operand of an instruction.  Floating-point numbers are bit patterns. -/
inductive Operand where
  | none
  | int32 (n : Int32)
  | int64 (n : Int64)
  | single (bits : UInt32)
  | double (bits : UInt64)
  | string (s : Bytes)
  | target (t : Target)
  | targets (ts : List Target)
  /-- A local variable, by its number. -/
  | variable (number : Option UInt32)
  | argument (number : UInt32)
  | row (r : Row)
  | signature (s : CallSig)

instance : Inhabited Operand := ⟨.none⟩

structure Instruction where
  opcode : OpCode
  operand : Operand := .none

/-- A protected region, with the octet that says how its handler is entered. -/
structure ExceptionHandler where
  tryStart : Target := .null
  tryEnd : Target := .null
  filterStart : Target := .null
  handlerStart : Target := .null
  handlerEnd : Target := .null
  catchType : Row := .null
  handlerType : UInt8 := 0
deriving Inhabited

structure MethodBody where
  instructions : List Instruction
  handlers : List ExceptionHandler := []
  locals : List TypeSig := []
  maxStack : UInt16 := 8
  initLocals : Bool := true
deriving Inhabited

end CilCatalog.Live
