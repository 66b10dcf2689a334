import CilCatalog.Bytes

/-!
# Opcodes

The instructions of the common intermediate language, as the standard numbers and names them, each with the kind of operand it takes.
-/

namespace CilCatalog.Live

/-- The kinds of operand. -/
inductive OperandType where
  | inlineBrTarget
  | inlineField
  | inlineI
  | inlineI8
  | inlineMethod
  | inlineNone
  | inlinePhi
  | inlineR
  | inlineSig
  | inlineString
  | inlineSwitch
  | inlineTok
  | inlineType
  | inlineVar
  | shortInlineBrTarget
  | shortInlineI
  | shortInlineR
  | shortInlineVar
deriving DecidableEq, Repr

namespace OperandType

def name : OperandType → String
  | inlineBrTarget      => "InlineBrTarget"
  | inlineField         => "InlineField"
  | inlineI             => "InlineI"
  | inlineI8            => "InlineI8"
  | inlineMethod        => "InlineMethod"
  | inlineNone          => "InlineNone"
  | inlinePhi           => "InlinePhi"
  | inlineR             => "InlineR"
  | inlineSig           => "InlineSig"
  | inlineString        => "InlineString"
  | inlineSwitch        => "InlineSwitch"
  | inlineTok           => "InlineTok"
  | inlineType          => "InlineType"
  | inlineVar           => "InlineVar"
  | shortInlineBrTarget => "ShortInlineBrTarget"
  | shortInlineI        => "ShortInlineI"
  | shortInlineR        => "ShortInlineR"
  | shortInlineVar      => "ShortInlineVar"

/-- All kinds of operand, by code. -/
def all : List OperandType :=
  [inlineBrTarget, inlineField, inlineI, inlineI8, inlineMethod, inlineNone, inlinePhi, inlineR,
   inlineSig, inlineString, inlineSwitch, inlineTok, inlineType, inlineVar, shortInlineBrTarget,
   shortInlineI, shortInlineR, shortInlineVar]

/-- The name of operand kind number `n`; a number without a kind has a name of its own. -/
def nameOfCode (n : Nat) : String := ((all[n]?).map name).getD "<invalid>"

end OperandType

/-- An instruction without its operand.  Numbers below 0x100 are one octet, those from 0xFE00 on two. -/
structure OpCode where
  name : String
  value : UInt16
  operandType : OperandType
deriving DecidableEq, Repr

namespace OpCode

/-- Whether the number the opcode takes is of an argument and not of a local variable. -/
def takesArgument (op : OpCode) : Bool :=
  [0x0E, 0x0F, 0x10, 0xFE09, 0xFE0A, 0xFE0B].contains op.value

/-- All opcodes, by value. -/
def all : List OpCode :=
  [⟨"nop", 0x00, .inlineNone⟩, ⟨"break", 0x01, .inlineNone⟩, ⟨"ldarg.0", 0x02, .inlineNone⟩,
   ⟨"ldarg.1", 0x03, .inlineNone⟩, ⟨"ldarg.2", 0x04, .inlineNone⟩,
   ⟨"ldarg.3", 0x05, .inlineNone⟩, ⟨"ldloc.0", 0x06, .inlineNone⟩,
   ⟨"ldloc.1", 0x07, .inlineNone⟩, ⟨"ldloc.2", 0x08, .inlineNone⟩,
   ⟨"ldloc.3", 0x09, .inlineNone⟩, ⟨"stloc.0", 0x0A, .inlineNone⟩,
   ⟨"stloc.1", 0x0B, .inlineNone⟩, ⟨"stloc.2", 0x0C, .inlineNone⟩,
   ⟨"stloc.3", 0x0D, .inlineNone⟩, ⟨"ldarg.s", 0x0E, .shortInlineVar⟩,
   ⟨"ldarga.s", 0x0F, .shortInlineVar⟩, ⟨"starg.s", 0x10, .shortInlineVar⟩,
   ⟨"ldloc.s", 0x11, .shortInlineVar⟩, ⟨"ldloca.s", 0x12, .shortInlineVar⟩,
   ⟨"stloc.s", 0x13, .shortInlineVar⟩, ⟨"ldnull", 0x14, .inlineNone⟩,
   ⟨"ldc.i4.m1", 0x15, .inlineNone⟩, ⟨"ldc.i4.0", 0x16, .inlineNone⟩,
   ⟨"ldc.i4.1", 0x17, .inlineNone⟩, ⟨"ldc.i4.2", 0x18, .inlineNone⟩,
   ⟨"ldc.i4.3", 0x19, .inlineNone⟩, ⟨"ldc.i4.4", 0x1A, .inlineNone⟩,
   ⟨"ldc.i4.5", 0x1B, .inlineNone⟩, ⟨"ldc.i4.6", 0x1C, .inlineNone⟩,
   ⟨"ldc.i4.7", 0x1D, .inlineNone⟩, ⟨"ldc.i4.8", 0x1E, .inlineNone⟩,
   ⟨"ldc.i4.s", 0x1F, .shortInlineI⟩, ⟨"ldc.i4", 0x20, .inlineI⟩, ⟨"ldc.i8", 0x21, .inlineI8⟩,
   ⟨"ldc.r4", 0x22, .shortInlineR⟩, ⟨"ldc.r8", 0x23, .inlineR⟩, ⟨"dup", 0x25, .inlineNone⟩,
   ⟨"pop", 0x26, .inlineNone⟩, ⟨"jmp", 0x27, .inlineMethod⟩, ⟨"call", 0x28, .inlineMethod⟩,
   ⟨"calli", 0x29, .inlineSig⟩, ⟨"ret", 0x2A, .inlineNone⟩, ⟨"br.s", 0x2B, .shortInlineBrTarget⟩,
   ⟨"brfalse.s", 0x2C, .shortInlineBrTarget⟩, ⟨"brtrue.s", 0x2D, .shortInlineBrTarget⟩,
   ⟨"beq.s", 0x2E, .shortInlineBrTarget⟩, ⟨"bge.s", 0x2F, .shortInlineBrTarget⟩,
   ⟨"bgt.s", 0x30, .shortInlineBrTarget⟩, ⟨"ble.s", 0x31, .shortInlineBrTarget⟩,
   ⟨"blt.s", 0x32, .shortInlineBrTarget⟩, ⟨"bne.un.s", 0x33, .shortInlineBrTarget⟩,
   ⟨"bge.un.s", 0x34, .shortInlineBrTarget⟩, ⟨"bgt.un.s", 0x35, .shortInlineBrTarget⟩,
   ⟨"ble.un.s", 0x36, .shortInlineBrTarget⟩, ⟨"blt.un.s", 0x37, .shortInlineBrTarget⟩,
   ⟨"br", 0x38, .inlineBrTarget⟩, ⟨"brfalse", 0x39, .inlineBrTarget⟩,
   ⟨"brtrue", 0x3A, .inlineBrTarget⟩, ⟨"beq", 0x3B, .inlineBrTarget⟩,
   ⟨"bge", 0x3C, .inlineBrTarget⟩, ⟨"bgt", 0x3D, .inlineBrTarget⟩,
   ⟨"ble", 0x3E, .inlineBrTarget⟩, ⟨"blt", 0x3F, .inlineBrTarget⟩,
   ⟨"bne.un", 0x40, .inlineBrTarget⟩, ⟨"bge.un", 0x41, .inlineBrTarget⟩,
   ⟨"bgt.un", 0x42, .inlineBrTarget⟩, ⟨"ble.un", 0x43, .inlineBrTarget⟩,
   ⟨"blt.un", 0x44, .inlineBrTarget⟩, ⟨"switch", 0x45, .inlineSwitch⟩,
   ⟨"ldind.i1", 0x46, .inlineNone⟩, ⟨"ldind.u1", 0x47, .inlineNone⟩,
   ⟨"ldind.i2", 0x48, .inlineNone⟩, ⟨"ldind.u2", 0x49, .inlineNone⟩,
   ⟨"ldind.i4", 0x4A, .inlineNone⟩, ⟨"ldind.u4", 0x4B, .inlineNone⟩,
   ⟨"ldind.i8", 0x4C, .inlineNone⟩, ⟨"ldind.i", 0x4D, .inlineNone⟩,
   ⟨"ldind.r4", 0x4E, .inlineNone⟩, ⟨"ldind.r8", 0x4F, .inlineNone⟩,
   ⟨"ldind.ref", 0x50, .inlineNone⟩, ⟨"stind.ref", 0x51, .inlineNone⟩,
   ⟨"stind.i1", 0x52, .inlineNone⟩, ⟨"stind.i2", 0x53, .inlineNone⟩,
   ⟨"stind.i4", 0x54, .inlineNone⟩, ⟨"stind.i8", 0x55, .inlineNone⟩,
   ⟨"stind.r4", 0x56, .inlineNone⟩, ⟨"stind.r8", 0x57, .inlineNone⟩, ⟨"add", 0x58, .inlineNone⟩,
   ⟨"sub", 0x59, .inlineNone⟩, ⟨"mul", 0x5A, .inlineNone⟩, ⟨"div", 0x5B, .inlineNone⟩,
   ⟨"div.un", 0x5C, .inlineNone⟩, ⟨"rem", 0x5D, .inlineNone⟩, ⟨"rem.un", 0x5E, .inlineNone⟩,
   ⟨"and", 0x5F, .inlineNone⟩, ⟨"or", 0x60, .inlineNone⟩, ⟨"xor", 0x61, .inlineNone⟩,
   ⟨"shl", 0x62, .inlineNone⟩, ⟨"shr", 0x63, .inlineNone⟩, ⟨"shr.un", 0x64, .inlineNone⟩,
   ⟨"neg", 0x65, .inlineNone⟩, ⟨"not", 0x66, .inlineNone⟩, ⟨"conv.i1", 0x67, .inlineNone⟩,
   ⟨"conv.i2", 0x68, .inlineNone⟩, ⟨"conv.i4", 0x69, .inlineNone⟩,
   ⟨"conv.i8", 0x6A, .inlineNone⟩, ⟨"conv.r4", 0x6B, .inlineNone⟩,
   ⟨"conv.r8", 0x6C, .inlineNone⟩, ⟨"conv.u4", 0x6D, .inlineNone⟩,
   ⟨"conv.u8", 0x6E, .inlineNone⟩, ⟨"callvirt", 0x6F, .inlineMethod⟩,
   ⟨"cpobj", 0x70, .inlineType⟩, ⟨"ldobj", 0x71, .inlineType⟩, ⟨"ldstr", 0x72, .inlineString⟩,
   ⟨"newobj", 0x73, .inlineMethod⟩, ⟨"castclass", 0x74, .inlineType⟩,
   ⟨"isinst", 0x75, .inlineType⟩, ⟨"conv.r.un", 0x76, .inlineNone⟩, ⟨"unbox", 0x79, .inlineType⟩,
   ⟨"throw", 0x7A, .inlineNone⟩, ⟨"ldfld", 0x7B, .inlineField⟩, ⟨"ldflda", 0x7C, .inlineField⟩,
   ⟨"stfld", 0x7D, .inlineField⟩, ⟨"ldsfld", 0x7E, .inlineField⟩,
   ⟨"ldsflda", 0x7F, .inlineField⟩, ⟨"stsfld", 0x80, .inlineField⟩, ⟨"stobj", 0x81, .inlineType⟩,
   ⟨"conv.ovf.i1.un", 0x82, .inlineNone⟩, ⟨"conv.ovf.i2.un", 0x83, .inlineNone⟩,
   ⟨"conv.ovf.i4.un", 0x84, .inlineNone⟩, ⟨"conv.ovf.i8.un", 0x85, .inlineNone⟩,
   ⟨"conv.ovf.u1.un", 0x86, .inlineNone⟩, ⟨"conv.ovf.u2.un", 0x87, .inlineNone⟩,
   ⟨"conv.ovf.u4.un", 0x88, .inlineNone⟩, ⟨"conv.ovf.u8.un", 0x89, .inlineNone⟩,
   ⟨"conv.ovf.i.un", 0x8A, .inlineNone⟩, ⟨"conv.ovf.u.un", 0x8B, .inlineNone⟩,
   ⟨"box", 0x8C, .inlineType⟩, ⟨"newarr", 0x8D, .inlineType⟩, ⟨"ldlen", 0x8E, .inlineNone⟩,
   ⟨"ldelema", 0x8F, .inlineType⟩, ⟨"ldelem.i1", 0x90, .inlineNone⟩,
   ⟨"ldelem.u1", 0x91, .inlineNone⟩, ⟨"ldelem.i2", 0x92, .inlineNone⟩,
   ⟨"ldelem.u2", 0x93, .inlineNone⟩, ⟨"ldelem.i4", 0x94, .inlineNone⟩,
   ⟨"ldelem.u4", 0x95, .inlineNone⟩, ⟨"ldelem.i8", 0x96, .inlineNone⟩,
   ⟨"ldelem.i", 0x97, .inlineNone⟩, ⟨"ldelem.r4", 0x98, .inlineNone⟩,
   ⟨"ldelem.r8", 0x99, .inlineNone⟩, ⟨"ldelem.ref", 0x9A, .inlineNone⟩,
   ⟨"stelem.i", 0x9B, .inlineNone⟩, ⟨"stelem.i1", 0x9C, .inlineNone⟩,
   ⟨"stelem.i2", 0x9D, .inlineNone⟩, ⟨"stelem.i4", 0x9E, .inlineNone⟩,
   ⟨"stelem.i8", 0x9F, .inlineNone⟩, ⟨"stelem.r4", 0xA0, .inlineNone⟩,
   ⟨"stelem.r8", 0xA1, .inlineNone⟩, ⟨"stelem.ref", 0xA2, .inlineNone⟩,
   ⟨"ldelem", 0xA3, .inlineType⟩, ⟨"stelem", 0xA4, .inlineType⟩,
   ⟨"unbox.any", 0xA5, .inlineType⟩, ⟨"conv.ovf.i1", 0xB3, .inlineNone⟩,
   ⟨"conv.ovf.u1", 0xB4, .inlineNone⟩, ⟨"conv.ovf.i2", 0xB5, .inlineNone⟩,
   ⟨"conv.ovf.u2", 0xB6, .inlineNone⟩, ⟨"conv.ovf.i4", 0xB7, .inlineNone⟩,
   ⟨"conv.ovf.u4", 0xB8, .inlineNone⟩, ⟨"conv.ovf.i8", 0xB9, .inlineNone⟩,
   ⟨"conv.ovf.u8", 0xBA, .inlineNone⟩, ⟨"refanyval", 0xC2, .inlineType⟩,
   ⟨"ckfinite", 0xC3, .inlineNone⟩, ⟨"mkrefany", 0xC6, .inlineType⟩,
   ⟨"ldtoken", 0xD0, .inlineTok⟩, ⟨"conv.u2", 0xD1, .inlineNone⟩, ⟨"conv.u1", 0xD2, .inlineNone⟩,
   ⟨"conv.i", 0xD3, .inlineNone⟩, ⟨"conv.ovf.i", 0xD4, .inlineNone⟩,
   ⟨"conv.ovf.u", 0xD5, .inlineNone⟩, ⟨"add.ovf", 0xD6, .inlineNone⟩,
   ⟨"add.ovf.un", 0xD7, .inlineNone⟩, ⟨"mul.ovf", 0xD8, .inlineNone⟩,
   ⟨"mul.ovf.un", 0xD9, .inlineNone⟩, ⟨"sub.ovf", 0xDA, .inlineNone⟩,
   ⟨"sub.ovf.un", 0xDB, .inlineNone⟩, ⟨"endfinally", 0xDC, .inlineNone⟩,
   ⟨"leave", 0xDD, .inlineBrTarget⟩, ⟨"leave.s", 0xDE, .shortInlineBrTarget⟩,
   ⟨"stind.i", 0xDF, .inlineNone⟩, ⟨"conv.u", 0xE0, .inlineNone⟩,
   ⟨"arglist", 0xFE00, .inlineNone⟩, ⟨"ceq", 0xFE01, .inlineNone⟩, ⟨"cgt", 0xFE02, .inlineNone⟩,
   ⟨"cgt.un", 0xFE03, .inlineNone⟩, ⟨"clt", 0xFE04, .inlineNone⟩,
   ⟨"clt.un", 0xFE05, .inlineNone⟩, ⟨"ldftn", 0xFE06, .inlineMethod⟩,
   ⟨"ldvirtftn", 0xFE07, .inlineMethod⟩, ⟨"ldarg", 0xFE09, .inlineVar⟩,
   ⟨"ldarga", 0xFE0A, .inlineVar⟩, ⟨"starg", 0xFE0B, .inlineVar⟩, ⟨"ldloc", 0xFE0C, .inlineVar⟩,
   ⟨"ldloca", 0xFE0D, .inlineVar⟩, ⟨"stloc", 0xFE0E, .inlineVar⟩,
   ⟨"localloc", 0xFE0F, .inlineNone⟩, ⟨"endfilter", 0xFE11, .inlineNone⟩,
   ⟨"unaligned.", 0xFE12, .shortInlineI⟩, ⟨"volatile.", 0xFE13, .inlineNone⟩,
   ⟨"tail.", 0xFE14, .inlineNone⟩, ⟨"initobj", 0xFE15, .inlineType⟩,
   ⟨"constrained.", 0xFE16, .inlineType⟩, ⟨"cpblk", 0xFE17, .inlineNone⟩,
   ⟨"initblk", 0xFE18, .inlineNone⟩, ⟨"no.", 0xFE19, .shortInlineI⟩,
   ⟨"rethrow", 0xFE1A, .inlineNone⟩, ⟨"sizeof", 0xFE1C, .inlineType⟩,
   ⟨"refanytype", 0xFE1D, .inlineNone⟩, ⟨"readonly.", 0xFE1E, .inlineNone⟩]

/-- The opcode called `n`. -/
def ofName? (n : Bytes) : Option OpCode := all.find? (utf8 ·.name == n)

end OpCode

end CilCatalog.Live
