import HotPatch.Code.Encode
import HotPatch.Proofs.Results

/-!
# The size of encoded code

Every instruction takes exactly the bytes that its opcode announces, so offsets
and size of the code are known before anything is encoded.
-/

namespace HotPatch.Code

variable {instructions : List Instruction} {instruction : Instruction} {code : EncodedCode}
  {all : Array Nat} {index next start : Nat} {bytes : Bytes}

/-- The number of bytes that the instructions take. -/
def codeSize (instructions : List Instruction) : Nat := (instructions.map (·.size)).sum

@[simp] theorem codeSize_nil : codeSize [] = 0 := rfl

@[simp] theorem codeSize_cons (instruction : Instruction) (instructions : List Instruction) :
    codeSize (instruction :: instructions) = instruction.size + codeSize instructions := by
  simp [codeSize]

theorem length_le_codeSize (instructions : List Instruction) : instructions.length ≤ codeSize instructions := by
  induction instructions with
  | nil => simp
  | cons instruction instructions ih =>
    have hpos : 0 < instruction.size := instruction.opcode.size_pos
    rw [List.length_cons, codeSize_cons]
    omega

@[simp] theorem length_signed (width : Nat) (value : Int) : (signed width value).length = width := by
  simp [signed]

/-- An operand takes the bytes of its kind. -/
theorem length_operandBytes (h : operandBytes all index next instruction = .ok bytes) :
    bytes.length = instruction.info.operand.size := by
  unfold operandBytes at h
  split at h
  case h_11 => cases h
  all_goals
    rename_i hkind hoperand
    rw [hkind]
  case h_6 =>
    split_ifs at h
    · cases h
      rfl
    · cases h
  case h_9 =>
    obtain ⟨far, -, h⟩ := bind_eq_ok.mp h
    split_ifs at h
    · cases h
      exact length_signed 1 far
    · cases h
  case h_10 =>
    obtain ⟨far, -, h⟩ := bind_eq_ok.mp h
    split_ifs at h
    · cases h
      exact length_signed 4 far
    · cases h
  all_goals
    cases h
    simp [Immediate.bytes, OperandKind.size]

/-- Without a target, the place does not matter. -/
theorem operandBytes_of_no_target {all' : Array Nat} {index' next' : Nat}
    (h : instruction.target? = none) :
    operandBytes all index next instruction = operandBytes all' index' next' instruction := by
  obtain ⟨opcode, operand, point⟩ := instruction
  unfold operandBytes Instruction.info
  rcases operand with - | (value | value | value | value) | token | target | slot
  case target => cases h
  all_goals rcases opcode.info.operand <;> rfl

theorem length_encodeInstruction {offset : Nat}
    (h : encodeInstruction all index offset instruction = .ok bytes) : bytes.length = instruction.size := by
  obtain ⟨operand, ho, h⟩ := bind_eq_ok.mp h
  cases h
  rw [List.length_append, length_operandBytes ho]
  rfl

theorem length_encodeFrom (h : encodeFrom all index instructions (offsetsFrom start instructions) = .ok bytes) :
    bytes.length = codeSize instructions := by
  induction instructions generalizing index start bytes with
  | nil =>
    cases h
    rfl
  | cons instruction instructions ih =>
    rw [offsetsFrom, encodeFrom] at h
    obtain ⟨head, hh, h⟩ := bind_eq_ok.mp h
    obtain ⟨rest, hr, h⟩ := bind_eq_ok.mp h
    cases h
    rw [List.length_append, length_encodeInstruction hh, ih hr, codeSize_cons]

theorem encode_ok (h : encode instructions = .ok code) :
    code.offsets = (offsetsFrom 0 instructions).toArray ∧ code.size = codeSize instructions ∧
      encodeFrom (offsetsFrom 0 instructions).toArray 0 instructions (offsetsFrom 0 instructions) =
        .ok code.bytes := by
  obtain ⟨offsets, ho, h⟩ := bind_eq_ok.mp h
  obtain ⟨bytes, hb, h⟩ := bind_eq_ok.mp h
  cases h
  unfold Code.offsets at ho
  dsimp only at ho
  split_ifs at ho
  · cases ho
    exact ⟨rfl, length_encodeFrom hb, hb⟩
  · cases ho

/-- The end of the code counts as an offset. -/
theorem EncodedCode.offsetOf?_isSome (h : encode instructions = .ok code) (hsize : code.size < codeLimit)
    {position : Nat} : (code.offsetOf? position).isSome ↔ position ≤ instructions.length := by
  have hlength : code.offsets.size = instructions.length := by
    rw [(encode_ok h).1]
    simp
  unfold EncodedCode.offsetOf?
  rw [hlength]
  split_ifs with he hl
  · simp [he]
  · exact absurd hsize hl
  · simp only [Array.getElem?_eq_some_iff, Option.isSome_iff_exists, hlength]
    constructor
    · rintro ⟨-, hlt, -⟩
      omega
    · intro hle
      exact ⟨_, by omega, rfl⟩

end HotPatch.Code
