import HotPatch.Token
import HotPatch.Code.Opcode

/-!
# Instructions

An instruction is an opcode with an operand and, possibly, the piece of source
text that it came from. Branches name their target by its index in the list of
instructions, so they survive a change of instruction sizes. A double is kept
as its 64 bits: two doubles are the same exactly when their bits are.
-/

namespace HotPatch.Code

/-- A span of a source document. -/
structure SequencePoint where
  document : UInt32
  startLine : UInt32
  startColumn : UInt16
  endLine : UInt32
  endColumn : UInt16
  isHidden : Bool := false
  deriving DecidableEq, Repr

/-- The line number that stands for compiler-generated code. -/
def SequencePoint.hiddenLine : UInt32 := 0xFEEFEE

/-- The point of compiler-generated code. -/
def SequencePoint.hidden (document : UInt32) : SequencePoint :=
  ⟨document, hiddenLine, 0, hiddenLine, 0, true⟩

inductive Immediate where
  | int8 (value : Int8)
  | int32 (value : Int32)
  | int64 (value : Int64)
  | float64 (bits : UInt64)
  deriving DecidableEq, Repr

inductive Operand where
  | none
  | immediate (value : Immediate)
  | token (token : Token)
  | target (index : Nat)
  | variable (index : UInt16)
  deriving DecidableEq, Repr

structure Instruction where
  opcode : Opcode
  operand : Operand := .none
  point : Option SequencePoint := none
  deriving DecidableEq, Repr

namespace Instruction

def withToken (opcode : Opcode) (token : Token) : Instruction := { opcode, operand := .token token }

def withVariable (opcode : Opcode) (index : UInt16) : Instruction :=
  { opcode, operand := .variable index }

def info (instruction : Instruction) : OpcodeInfo := instruction.opcode.info

def size (instruction : Instruction) : Nat := instruction.opcode.size

/-- The index that the instruction may branch to. -/
def target? (instruction : Instruction) : Option Nat :=
  match instruction.operand with
  | .target index => some index
  | _ => Option.none

def token? (instruction : Instruction) : Option Token :=
  match instruction.operand with
  | .token token => some token
  | _ => Option.none

end Instruction
end HotPatch.Code
