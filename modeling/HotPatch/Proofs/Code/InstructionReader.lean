import HotPatch.Proofs.Bytes.Reading
import HotPatch.Proofs.Code.Encodable

/-!
# Reading an instruction

A reader that knows the table of opcodes takes one instruction off the front.
No opcode starts with the bytes of another one, so the bytes in front tell the
opcode, and the opcode tells what its operand takes. A branch is read with the
distance that it is written with.
-/

namespace HotPatch.Code

variable {instructions : List Instruction} {instruction : Instruction} {opcode : Opcode} {bytes : Bytes}
  {index width : Nat}

namespace Opcode

@[simp] theorem mem_all (opcode : Opcode) : opcode ∈ all := by cases opcode <;> decide

/-- No opcode starts with the bytes of another one. -/
theorem eq_of_bytes_prefix {first second : Opcode} (h : first.info.bytes <+: second.info.bytes) :
    first = second := by
  have hall : ∀ first ∈ all, ∀ second ∈ all, first.info.bytes.isPrefixOf second.info.bytes = true →
      first = second := by
    decide +kernel
  exact hall first (mem_all first) second (mem_all second) (List.isPrefixOf_iff_prefix.mpr h)

end Opcode

/-- The opcode whose bytes are in front. -/
def readOpcode : Reader Opcode := fun input =>
  match Opcode.all.find? (·.info.bytes.isPrefixOf input) with
  | some opcode => .ok (opcode, input.drop opcode.info.bytes.length)
  | none => .error .outOfBounds

theorem reads_opcode (opcode : Opcode) : Reads readOpcode opcode.info.bytes opcode := by
  intro rest
  have hfront : ∀ other : Opcode, other.info.bytes.isPrefixOf (opcode.info.bytes ++ rest) = true ↔
      other = opcode := by
    intro other
    rw [List.isPrefixOf_iff_prefix]
    constructor
    · intro h
      -- of two prefixes of the same input, one starts with the other
      rcases List.prefix_or_prefix_of_prefix h (List.prefix_append opcode.info.bytes rest) with h | h
      · exact Opcode.eq_of_bytes_prefix h
      · exact (Opcode.eq_of_bytes_prefix h).symm
    · rintro rfl
      exact List.prefix_append _ rest
  have hsome : (Opcode.all.find? (·.info.bytes.isPrefixOf (opcode.info.bytes ++ rest))).isSome := by
    rw [List.find?_isSome]
    exact ⟨opcode, opcode.mem_all, (hfront opcode).mpr rfl⟩
  obtain ⟨other, hfound⟩ := Option.isSome_iff_exists.mp hsome
  have hother := List.find?_some hfound
  obtain rfl := (hfront other).mp hother
  simp [readOpcode, hfound]

/-- An operand as it is written: a branch holds a distance in place of its target. -/
inductive StoredOperand where
  | plain (operand : Operand)
  | distance (far : Int)
  deriving DecidableEq, Repr

/-- The operand of the instruction with an index, as it is written. -/
def storedOperand (instructions : List Instruction) (index : Nat) : Operand → StoredOperand
  | .target target => .distance (branchDistance instructions index target)
  | operand => .plain operand

/-- The number whose two's complement is in front. -/
def readSigned (width : Nat) : Reader Int := return Int.bmod (← Reader.number width) (256 ^ width)

theorem reads_signed {value : Int} (h : value.bmod (256 ^ width) = value) :
    Reads (readSigned width) (signed width value) value := by
  have hpos : (0 : Int) < (256 ^ width : Nat) := by positivity
  have hlower := Int.emod_nonneg value hpos.ne'
  have hupper := Int.emod_lt_of_pos value hpos
  have hnumber : Reads (Reader.number width) (signed width value) (value % (256 ^ width : Nat)).toNat := by
    have hlt : (value % (256 ^ width : Nat)).toNat < 256 ^ width := by omega
    exact Reads.number hlt
  apply hnumber.map
  rw [Int.toNat_of_nonneg hlower, Int.emod_bmod, h]
  exact Reads.pure value

def readOperand : OperandKind → Reader StoredOperand
  | .none => return .plain .none
  | .int8 => return .plain (.immediate (.int8 (UInt8.ofNat (← Reader.number 1)).toInt8))
  | .int32 => return .plain (.immediate (.int32 (UInt32.ofNat (← Reader.number 4)).toInt32))
  | .int64 => return .plain (.immediate (.int64 (UInt64.ofNat (← Reader.number 8)).toInt64))
  | .float64 => return .plain (.immediate (.float64 (UInt64.ofNat (← Reader.number 8))))
  | .uint8 => return .plain (.variable (UInt16.ofNat (← Reader.number 1)))
  | .uint16 => return .plain (.variable (UInt16.ofNat (← Reader.number 2)))
  | .token => return .plain (.token ⟨UInt32.ofNat (← Reader.number 4)⟩)
  | .shortTarget => return .distance (← readSigned 1)
  | .target => return .distance (← readSigned 4)

/-- The written operand is read back. -/
theorem reads_operand (h : operandBytes (offsetsFrom 0 instructions).toArray index
      (offsetAt instructions (index + 1)) instruction = .ok bytes) :
    Reads (readOperand instruction.info.operand) bytes (storedOperand instructions index instruction.operand) := by
  have hfits := exists_operandBytes_iff.mp ⟨bytes, h⟩
  unfold operandBytes at h
  generalize instruction.info.operand = kind at h hfits ⊢
  generalize instruction.operand = operand at h hfits ⊢
  cases hfits with
  | none =>
    cases h
    exact Reads.pure (StoredOperand.plain .none)
  | int8 value =>
    cases h
    rw [Immediate.bytes, ← Bytes.littleEndian_one]
    exact Reads.number_as value.toUInt8.toNat_lt (by simp [storedOperand])
  | int32 value =>
    cases h
    exact Reads.number_as value.toUInt32.toNat_lt (by simp [storedOperand])
  | int64 value =>
    cases h
    exact Reads.number_as value.toUInt64.toNat_lt (by simp [storedOperand])
  | float64 bits =>
    cases h
    exact Reads.number_as bits.toNat_lt (by simp [storedOperand])
  | @uint8 slot hnarrow =>
    cases (if_pos hnarrow).symm.trans h
    have hslot : UInt16.ofNat slot.toUInt8.toNat = slot := by
      rw [UInt16.toNat_toUInt8, Nat.mod_eq_of_lt hnarrow, UInt16.ofNat_toNat]
    rw [← Bytes.littleEndian_one]
    exact Reads.number_as slot.toUInt8.toNat_lt (by simp only [hslot, storedOperand])
  | uint16 slot =>
    cases h
    exact Reads.number_as slot.toNat_lt (by simp [storedOperand])
  | token token =>
    cases h
    exact Reads.number_as token.value.toNat_lt (by simp [storedOperand])
  | shortTarget hmem hlower hupper =>
    obtain ⟨far, hfar, h⟩ := bind_eq_ok.mp h
    obtain ⟨-, rfl⟩ := distance_eq_ok.mp hfar
    cases (if_pos ⟨hlower, hupper⟩).symm.trans h
    exact (reads_signed (Int.bmod_eq_of_le hlower hupper)).map (Reads.pure _)
  | target hmem hlower hupper =>
    obtain ⟨far, hfar, h⟩ := bind_eq_ok.mp h
    obtain ⟨-, rfl⟩ := distance_eq_ok.mp hfar
    cases (if_pos ⟨hlower, hupper⟩).symm.trans h
    exact (reads_signed (Int.bmod_eq_of_le hlower hupper)).map (Reads.pure _)

def readInstruction : Reader (Opcode × StoredOperand) := do
  let opcode ← readOpcode
  return (opcode, ← readOperand opcode.info.operand)

theorem reads_instruction (h : encodeInstruction (offsetsFrom 0 instructions).toArray index
      (offsetAt instructions index) instruction = .ok bytes) (hindex : instructions[index]? = some instruction) :
    Reads readInstruction bytes (instruction.opcode, storedOperand instructions index instruction.operand) := by
  obtain ⟨operand, hoperand, h⟩ := bind_eq_ok.mp h
  cases h
  rw [← offsetAt_succ hindex] at hoperand
  exact (reads_opcode instruction.opcode).bind ((reads_operand hoperand).map (Reads.pure _))

end HotPatch.Code
