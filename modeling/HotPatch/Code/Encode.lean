import HotPatch.Bytes.Basic
import HotPatch.Error

/-!
# Machine code of an instruction list

Instructions are laid out one after another, so the offset of an instruction is
the sum of the sizes before it. A branch is written as the distance from the
end of the branch to its target. Operands must be of the kind that the opcode
declares and fit its width.
-/

namespace HotPatch.Code

/-- Code and offsets are counted in 32 bits. -/
def codeLimit : Nat := 0x100000000

/-- The offset of each instruction, the first one standing at the given offset. -/
def offsetsFrom : Nat → List Instruction → List Nat
  | _, [] => []
  | start, instruction :: rest => start :: offsetsFrom (start + instruction.size) rest

def offsets (instructions : List Instruction) : Result (List Nat) :=
  let all := offsetsFrom 0 instructions
  if all.all (· < codeLimit) then .ok all else malformed .codeSize

@[simp] theorem length_offsetsFrom (start : Nat) (instructions : List Instruction) :
    (offsetsFrom start instructions).length = instructions.length := by
  induction instructions generalizing start with
  | nil => rfl
  | cons instruction rest ih => simp [offsetsFrom, ih]

structure EncodedCode where
  bytes : Bytes
  offsets : Array Nat
  deriving DecidableEq, Repr

/-- The offset of an instruction; the index behind the last one stands for the end of the code. -/
def EncodedCode.offsetOf? (code : EncodedCode) (index : Nat) : Option Nat :=
  if index = code.offsets.size then
    if code.bytes.length < codeLimit then some code.bytes.length else none
  else code.offsets[index]?

def EncodedCode.size (code : EncodedCode) : Nat := code.bytes.length

/-- The two's complement of a number in the given number of bytes. -/
def signed (width : Nat) (value : Int) : Bytes :=
  Bytes.littleEndian width (value % (Nat.pow 256 width : Nat)).toNat

/-- How far the target lies behind the end of the branch. -/
def distance (offsets : Array Nat) (target next : Nat) : Result Int :=
  match offsets[target]? with
  | some offset => .ok (offset - next)
  | none => .error (.undefinedTarget target offsets.size)

def Immediate.bytes : Immediate → Bytes
  | int8 value => [value.toUInt8]
  | int32 value => Bytes.littleEndian 4 value.toUInt32.toNat
  | int64 value => Bytes.littleEndian 8 value.toUInt64.toNat
  | float64 bits => Bytes.littleEndian 8 bits.toNat

/-- The operand of the instruction with the given index, which ends at offset `next`. -/
def operandBytes (offsets : Array Nat) (index next : Nat) (instruction : Instruction) : Result Bytes :=
  match instruction.info.operand, instruction.operand with
  | .none, .none => .ok []
  | .int8, .immediate (.int8 value) => .ok (Immediate.int8 value).bytes
  | .int32, .immediate (.int32 value) => .ok (Immediate.int32 value).bytes
  | .int64, .immediate (.int64 value) => .ok (Immediate.int64 value).bytes
  | .float64, .immediate (.float64 bits) => .ok (Immediate.float64 bits).bytes
  | .uint8, .variable slot =>
    if slot.toNat < 256 then .ok [slot.toUInt8] else malformed (.variableIndex slot instruction.opcode)
  | .uint16, .variable slot => .ok (Bytes.littleEndian 2 slot.toNat)
  | .token, .token token => .ok (Bytes.littleEndian 4 token.value.toNat)
  | .shortTarget, .target target => do
    let far ← distance offsets target next
    if -128 ≤ far ∧ far < 128 then return signed 1 far
    else malformed (.shortBranch index target far)
  | .target, .target target => do
    let far ← distance offsets target next
    if -0x80000000 ≤ far ∧ far < 0x80000000 then return signed 4 far
    else malformed (.branchDistance far)
  | _, found => malformed (.operandKind found instruction.opcode)

def encodeInstruction (offsets : Array Nat) (index offset : Nat) (instruction : Instruction) :
    Result Bytes := do
  let operand ← operandBytes offsets index (offset + instruction.size) instruction
  return instruction.info.bytes ++ operand

/-- Encodes the instructions from an index on, whose offsets are the given ones. -/
def encodeFrom (all : Array Nat) : Nat → List Instruction → List Nat → Result Bytes
  | index, instruction :: rest, offset :: offsets => do
    let head ← encodeInstruction all index offset instruction
    return head ++ (← encodeFrom all (index + 1) rest offsets)
  | _, _, _ => .ok []

def encode (instructions : List Instruction) : Result EncodedCode := do
  let offsets ← offsets instructions
  let all := offsets.toArray
  return ⟨← encodeFrom all 0 instructions offsets, all⟩

end HotPatch.Code
