/-!
# Opcodes

The instruction set, with one row per opcode: its bytes, the kind of operand
that follows them, its effect on the evaluation stack and where control goes
next. Every table-driven pass reads this file and nothing else.
-/

namespace HotPatch.Code

inductive Flow where
  | sequential | conditionalBranch | unconditionalBranch | leave | call | return | throw | endFinally
  deriving DecidableEq, Repr

def Flow.name : Flow → String
  | sequential => "Sequential"
  | conditionalBranch => "ConditionalBranch"
  | unconditionalBranch => "UnconditionalBranch"
  | leave => "Leave"
  | call => "Call"
  | .return => "Return"
  | throw => "Throw"
  | endFinally => "EndFinally"

inductive OperandKind where
  | none | int8 | uint8 | uint16 | int32 | int64 | float64 | token | shortTarget | target
  deriving DecidableEq, Repr

def OperandKind.size : OperandKind → Nat
  | none => 0
  | int8 | uint8 | shortTarget => 1
  | uint16 => 2
  | int32 | token | target => 4
  | int64 | float64 => 8

/-- What an opcode takes off the stack: a fixed number, the arguments of a call or of a
construction, the returned value if there is one, or everything. -/
inductive Pops where
  | fixed (count : Nat) | call | construct | return | all
  deriving DecidableEq, Repr

def Pops.text : Pops → String
  | fixed count => s!"Fixed({count})"
  | call => "Call"
  | construct => "NewObj"
  | .return => "Return"
  | all => "All"

/-- What an opcode puts on the stack: a fixed number, or the value of a call if there is one. -/
inductive Pushes where
  | fixed (count : Nat) | call
  deriving DecidableEq, Repr

def Pushes.text : Pushes → String
  | fixed count => s!"Fixed({count})"
  | call => "Call"

inductive Opcode where
  | nop | ldarg0 | ldarg1 | ldarg2 | ldarg3 | ldargS | ldarg | ldloc0 | ldloc1 | ldlocS
  | stloc0 | stloc1 | stlocS | ldnull | ldcI40 | ldcI41 | ldcI4S | ldcI4 | ldcI8 | ldcR8
  | dup | pop | call | ret | brS | brfalseS | brtrueS | br | brfalse | brtrue | add | callvirt
  | ldstr | newobj | castclass | throw | ldfld | stfld | ldsfld | stsfld | box | ldtoken
  | endfinally | leave | leaveS | ceq
  deriving DecidableEq, Repr

structure OpcodeInfo where
  bytes : List UInt8
  operand : OperandKind
  pops : Pops
  pushes : Pushes
  flow : Flow
  deriving DecidableEq, Repr

/-- The size of an instruction: opcode bytes and operand. -/
def OpcodeInfo.size (info : OpcodeInfo) : Nat := info.bytes.length + info.operand.size

namespace Opcode

def all : List Opcode :=
  [nop, ldarg0, ldarg1, ldarg2, ldarg3, ldargS, ldarg, ldloc0, ldloc1, ldlocS, stloc0, stloc1, stlocS,
   ldnull, ldcI40, ldcI41, ldcI4S, ldcI4, ldcI8, ldcR8, dup, pop, call, ret, brS, brfalseS, brtrueS,
   br, brfalse, brtrue, add, callvirt, ldstr, newobj, castclass, throw, ldfld, stfld, ldsfld, stsfld,
   box, ldtoken, endfinally, leave, leaveS, ceq]

def info : Opcode → OpcodeInfo
  | nop => ⟨[0x00], .none, .fixed 0, .fixed 0, .sequential⟩
  | ldarg0 => ⟨[0x02], .none, .fixed 0, .fixed 1, .sequential⟩
  | ldarg1 => ⟨[0x03], .none, .fixed 0, .fixed 1, .sequential⟩
  | ldarg2 => ⟨[0x04], .none, .fixed 0, .fixed 1, .sequential⟩
  | ldarg3 => ⟨[0x05], .none, .fixed 0, .fixed 1, .sequential⟩
  | ldloc0 => ⟨[0x06], .none, .fixed 0, .fixed 1, .sequential⟩
  | ldloc1 => ⟨[0x07], .none, .fixed 0, .fixed 1, .sequential⟩
  | stloc0 => ⟨[0x0A], .none, .fixed 1, .fixed 0, .sequential⟩
  | stloc1 => ⟨[0x0B], .none, .fixed 1, .fixed 0, .sequential⟩
  | ldargS => ⟨[0x0E], .uint8, .fixed 0, .fixed 1, .sequential⟩
  | ldlocS => ⟨[0x11], .uint8, .fixed 0, .fixed 1, .sequential⟩
  | stlocS => ⟨[0x13], .uint8, .fixed 1, .fixed 0, .sequential⟩
  | ldnull => ⟨[0x14], .none, .fixed 0, .fixed 1, .sequential⟩
  | ldcI40 => ⟨[0x16], .none, .fixed 0, .fixed 1, .sequential⟩
  | ldcI41 => ⟨[0x17], .none, .fixed 0, .fixed 1, .sequential⟩
  | ldcI4S => ⟨[0x1F], .int8, .fixed 0, .fixed 1, .sequential⟩
  | ldcI4 => ⟨[0x20], .int32, .fixed 0, .fixed 1, .sequential⟩
  | ldcI8 => ⟨[0x21], .int64, .fixed 0, .fixed 1, .sequential⟩
  | ldcR8 => ⟨[0x23], .float64, .fixed 0, .fixed 1, .sequential⟩
  | dup => ⟨[0x25], .none, .fixed 1, .fixed 2, .sequential⟩
  | pop => ⟨[0x26], .none, .fixed 1, .fixed 0, .sequential⟩
  | call => ⟨[0x28], .token, .call, .call, .call⟩
  | ret => ⟨[0x2A], .none, .return, .fixed 0, .return⟩
  | brS => ⟨[0x2B], .shortTarget, .fixed 0, .fixed 0, .unconditionalBranch⟩
  | brfalseS => ⟨[0x2C], .shortTarget, .fixed 1, .fixed 0, .conditionalBranch⟩
  | brtrueS => ⟨[0x2D], .shortTarget, .fixed 1, .fixed 0, .conditionalBranch⟩
  | br => ⟨[0x38], .target, .fixed 0, .fixed 0, .unconditionalBranch⟩
  | brfalse => ⟨[0x39], .target, .fixed 1, .fixed 0, .conditionalBranch⟩
  | brtrue => ⟨[0x3A], .target, .fixed 1, .fixed 0, .conditionalBranch⟩
  | add => ⟨[0x58], .none, .fixed 2, .fixed 1, .sequential⟩
  | callvirt => ⟨[0x6F], .token, .call, .call, .call⟩
  | ldstr => ⟨[0x72], .token, .fixed 0, .fixed 1, .sequential⟩
  | newobj => ⟨[0x73], .token, .construct, .fixed 1, .call⟩
  | castclass => ⟨[0x74], .token, .fixed 1, .fixed 1, .sequential⟩
  | throw => ⟨[0x7A], .none, .fixed 1, .fixed 0, .throw⟩
  | ldfld => ⟨[0x7B], .token, .fixed 1, .fixed 1, .sequential⟩
  | stfld => ⟨[0x7D], .token, .fixed 2, .fixed 0, .sequential⟩
  | ldsfld => ⟨[0x7E], .token, .fixed 0, .fixed 1, .sequential⟩
  | stsfld => ⟨[0x80], .token, .fixed 1, .fixed 0, .sequential⟩
  | box => ⟨[0x8C], .token, .fixed 1, .fixed 1, .sequential⟩
  | ldtoken => ⟨[0xD0], .token, .fixed 0, .fixed 1, .sequential⟩
  | endfinally => ⟨[0xDC], .none, .all, .fixed 0, .endFinally⟩
  | leave => ⟨[0xDD], .target, .all, .fixed 0, .leave⟩
  | leaveS => ⟨[0xDE], .shortTarget, .all, .fixed 0, .leave⟩
  | ceq => ⟨[0xFE, 0x01], .none, .fixed 2, .fixed 1, .sequential⟩
  | ldarg => ⟨[0xFE, 0x09], .uint16, .fixed 0, .fixed 1, .sequential⟩

def mnemonic : Opcode → String
  | nop => "nop"
  | ldarg0 => "ldarg.0"
  | ldarg1 => "ldarg.1"
  | ldarg2 => "ldarg.2"
  | ldarg3 => "ldarg.3"
  | ldargS => "ldarg.s"
  | ldarg => "ldarg"
  | ldloc0 => "ldloc.0"
  | ldloc1 => "ldloc.1"
  | ldlocS => "ldloc.s"
  | stloc0 => "stloc.0"
  | stloc1 => "stloc.1"
  | stlocS => "stloc.s"
  | ldnull => "ldnull"
  | ldcI40 => "ldc.i4.0"
  | ldcI41 => "ldc.i4.1"
  | ldcI4S => "ldc.i4.s"
  | ldcI4 => "ldc.i4"
  | ldcI8 => "ldc.i8"
  | ldcR8 => "ldc.r8"
  | dup => "dup"
  | pop => "pop"
  | call => "call"
  | ret => "ret"
  | brS => "br.s"
  | brfalseS => "brfalse.s"
  | brtrueS => "brtrue.s"
  | br => "br"
  | brfalse => "brfalse"
  | brtrue => "brtrue"
  | add => "add"
  | callvirt => "callvirt"
  | ldstr => "ldstr"
  | newobj => "newobj"
  | castclass => "castclass"
  | throw => "throw"
  | ldfld => "ldfld"
  | stfld => "stfld"
  | ldsfld => "ldsfld"
  | stsfld => "stsfld"
  | box => "box"
  | ldtoken => "ldtoken"
  | endfinally => "endfinally"
  | leave => "leave"
  | leaveS => "leave.s"
  | ceq => "ceq"

def ofMnemonic? (name : String) : Option Opcode := all.find? fun opcode => opcode.mnemonic == name

def size (opcode : Opcode) : Nat := opcode.info.size

theorem size_pos (opcode : Opcode) : 0 < opcode.size := by cases opcode <;> decide

end Opcode
end HotPatch.Code
