import HotPatch.Proofs.Code.InstructionReader

/-!
# Reading code back

Code is read one instruction after another until nothing is left. The distance
of a branch is counted from the instruction behind it, and the offset that it
leads to is the offset of one instruction only: the target. So code gives back
the instructions that it was encoded from, up to the source text that they came
from.
-/

namespace HotPatch.Code

variable {instructions : List Instruction} {instruction : Instruction} {code : EncodedCode} {bytes : Bytes}
  {fuel index : Nat}

/-- An instruction as it is written, with its own offset and that of the next one. -/
structure StoredInstruction where
  offset : Nat
  next : Nat
  opcode : Opcode
  operand : StoredOperand
  deriving DecidableEq, Repr

/-- Reads the input to its end, if no more instructions are left than the fuel says. The first one
stands at the given offset. -/
def readFrom : Nat → Nat → Bytes → Result (List StoredInstruction)
  | _, _, [] => .ok []
  | 0, _, _ :: _ => .error .outOfBounds
  | fuel + 1, offset, input => do
    let ((opcode, operand), rest) ← readInstruction input
    let next := offset + (input.length - rest.length)
    return ⟨offset, next, opcode, operand⟩ :: (← readFrom fuel next rest)

/-- The instructions of code, which are no more than it has bytes. -/
def readCode (bytes : Bytes) : Result (List StoredInstruction) := readFrom bytes.length 0 bytes

/-- The operand, where a branch leads to the instruction with the offset that it is written with. -/
def StoredInstruction.resolve (offsets : List Nat) (stored : StoredInstruction) : Result Operand :=
  match stored.operand with
  | .plain operand => .ok operand
  | .distance far =>
    match (stored.next + far).toNat?.bind offsets.idxOf? with
    | some target => .ok (.target target)
    | none => .error .outOfBounds

def disassemble (bytes : Bytes) : Result (List Instruction) := do
  let stored ← readCode bytes
  let offsets := stored.map (·.offset)
  stored.mapM fun item => return { opcode := item.opcode, operand := ← item.resolve offsets }

/-- The instruction without the source text that it came from. -/
def Instruction.unpointed (instruction : Instruction) : Instruction := { instruction with point := none }

/-- The instruction with an index, as it is written. -/
def storedAt (instructions : List Instruction) (index : Nat) (instruction : Instruction) : StoredInstruction :=
  ⟨offsetAt instructions index, offsetAt instructions (index + 1), instruction.opcode,
    storedOperand instructions index instruction.operand⟩

theorem readFrom_append {first more : Bytes} {offset : Nat} {opcode : Opcode} {operand : StoredOperand}
    (h : Reads readInstruction first (opcode, operand)) (hfirst : first ≠ []) :
    readFrom (fuel + 1) offset (first ++ more) =
      (readFrom fuel (offset + first.length) more).map (⟨offset, offset + first.length, opcode, operand⟩ :: ·) := by
  have hnext : offset + ((first ++ more).length - more.length) = offset + first.length := by simp
  rw [readFrom, h more]
  · change (readFrom fuel (offset + ((first ++ more).length - more.length)) more >>= fun rest => _) = _
    rw [hnext]
    rcases readFrom fuel (offset + first.length) more with error | rest <;> rfl
  · simp [hfirst]

/-- From an instruction on, the code is read as it was written. -/
theorem readFrom_encodeFrom
    (h : encodeFrom (offsetsFrom 0 instructions).toArray index (instructions.drop index)
      (offsetsFrom (offsetAt instructions index) (instructions.drop index)) = .ok bytes)
    (hfuel : bytes.length ≤ fuel) : readFrom fuel (offsetAt instructions index) bytes =
      .ok ((instructions.mapIdx (storedAt instructions)).drop index) := by
  -- the induction is on what is left of the instructions; the offset is the same for writer and reader
  induction hrest : instructions.drop index generalizing index bytes fuel with
  | nil =>
    have hall : (instructions.mapIdx (storedAt instructions)).drop index = [] := by
      rw [List.drop_eq_nil_iff, List.length_mapIdx]
      exact List.drop_eq_nil_iff.mp hrest
    rw [hrest] at h
    cases h
    rw [readFrom, hall]
  | cons instruction rest ih =>
    have hindex : instructions[index]? = some instruction := by rw [← List.head?_drop, hrest, List.head?_cons]
    have hafter : instructions.drop (index + 1) = rest := by rw [← List.tail_drop, hrest, List.tail_cons]
    rw [hrest, offsetsFrom, encodeFrom] at h
    obtain ⟨first, hfirst, h⟩ := bind_eq_ok.mp h
    obtain ⟨more, hmore, h⟩ := bind_eq_ok.mp h
    cases h
    have hlength := length_encodeInstruction hfirst
    have hpos : 0 < instruction.size := instruction.opcode.size_pos
    rw [List.length_append] at hfuel
    obtain ⟨fuel, rfl⟩ := Nat.exists_eq_add_one_of_ne_zero (show fuel ≠ 0 by omega)
    -- each instruction takes a byte at least, so the fuel lasts
    rw [readFrom_append (reads_instruction hfirst hindex) (List.ne_nil_of_length_pos (by omega)), hlength,
      ← offsetAt_succ hindex]
    rw [← offsetAt_succ hindex, ← hafter] at hmore
    have hstored : (instructions.mapIdx (storedAt instructions)).drop index = storedAt instructions index instruction ::
        (instructions.mapIdx (storedAt instructions)).drop (index + 1) := by
      rw [List.drop_eq_getElem?_toList_append, List.getElem?_mapIdx, hindex]
      rfl
    rw [ih hmore (by omega) hafter, hstored]
    rfl

/-- Code is read as the instructions were written, each at its offset. -/
theorem readCode_encode (h : encode instructions = .ok code) :
    readCode code.bytes = .ok (instructions.mapIdx (storedAt instructions)) := by
  have hencoded := (encode_ok h).2.2
  exact readFrom_encodeFrom hencoded le_rfl

theorem map_offset_mapIdx (instructions : List Instruction) :
    (instructions.mapIdx (storedAt instructions)).map (·.offset) = offsetsFrom 0 instructions := by
  apply List.ext_getElem
  case hl => simp
  case h =>
    intro index hindex _
    simp [storedAt, offsetsFrom_zero]

/-- The offset that a branch leads to is the one of its target. -/
theorem resolve_storedAt
    (h : OperandFits instructions index instruction.info.operand instruction.operand) :
    (storedAt instructions index instruction).resolve (offsetsFrom 0 instructions) = .ok instruction.operand := by
  have hbranch : ∀ target < instructions.length, instruction.operand = .target target →
      (storedAt instructions index instruction).resolve (offsetsFrom 0 instructions) = .ok (.target target) := by
    intro target hmem htarget
    have hfound : ((offsetAt instructions target : Int).toNat?).bind (offsetsFrom 0 instructions).idxOf? = some target :=
      idxOf?_offsetsFrom hmem
    simp only [StoredInstruction.resolve, storedAt, htarget, storedOperand, add_branchDistance, hfound]
  generalize instruction.info.operand = kind at h
  generalize hoperand : instruction.operand = operand at h ⊢
  cases h with
  | shortTarget hmem => exact hbranch _ hmem hoperand
  | target hmem => exact hbranch _ hmem hoperand
  | _ => simp only [StoredInstruction.resolve, storedAt, hoperand, storedOperand]

/-- Encoded code gives back the instructions. -/
theorem disassemble_encode (h : encode instructions = .ok code) :
    disassemble code.bytes = .ok (instructions.map (·.unpointed)) := by
  have hoperands := (exists_encode_iff.mp ⟨code, h⟩).operands
  apply bind_eq_ok.mpr
  refine ⟨_, readCode_encode h, ?_⟩
  rw [map_offset_mapIdx, mapM_eq_ok, List.forall₂_iff_get]
  constructor
  · simp
  · intro index hstored hindex
    simp only [List.length_mapIdx] at hstored
    have hresolved := resolve_storedAt (hoperands index _ (List.getElem?_eq_getElem hstored))
    simp only [List.get_eq_getElem, List.getElem_mapIdx, List.getElem_map]
    exact bind_eq_ok.mpr ⟨_, hresolved, rfl⟩

example : (disassemble [0x00, 0x38, 0xFA, 0xFF, 0xFF, 0xFF]).toOption =
    some [{ opcode := .nop }, { opcode := .br, operand := .target 0 }] := by decide +kernel

/-- What a reader finds in the code that instructions were encoded to, and what the encoder reports about it. -/
structure ReadsBack (instructions : List Instruction) (code : EncodedCode) : Prop where
  disassembled : disassemble code.bytes = .ok (instructions.map (·.unpointed))
  offsets_read : ∃ stored, readCode code.bytes = .ok stored ∧ stored.map (·.offset) = code.offsets.toList
  branches_read : ∀ index instruction target, instructions[index]? = some instruction →
    instruction.operand = .target target → ∃ (stored : List StoredInstruction) (item : StoredInstruction) (far : Int)
      (offset : Nat), readCode code.bytes = .ok stored ∧ stored[index]? = some item ∧ item.operand = .distance far ∧
      item.next = offsetAt instructions (index + 1) ∧ code.offsets[target]? = some offset ∧ item.next + far = offset
  offsets_increase : code.offsets.toList.Pairwise (· < ·)
  offsets_length : code.offsets.size = instructions.length
  offsets_eq : ∀ index < instructions.length, code.offsets[index]? = some (offsetAt instructions index)
  offsetOf_length : code.offsetOf? instructions.length = if code.size < codeLimit then some code.size else none
  size_eq : code.size = (instructions.map (·.opcode.size)).sum

/-- Instructions are encoded exactly if offsets and operands fit. The code gives the instructions
back, with every branch at the distance of its target, and offsets and size are those of the opcodes. -/
theorem encode_reads_back (instructions : List Instruction) :
    ((∃ code, encode instructions = .ok code) ↔ Encodable instructions) ∧
      ∀ code, encode instructions = .ok code → ReadsBack instructions code := by
  refine ⟨exists_encode_iff, fun code h => ?_⟩
  obtain ⟨hoffsets, hsize, -⟩ := encode_ok h
  have hread := readCode_encode h
  have hoffset : ∀ index < instructions.length, code.offsets[index]? = some (offsetAt instructions index) := by
    intro index hindex
    rw [hoffsets, List.getElem?_toArray, getElem?_offsetsFrom hindex]
  constructor
  case disassembled => exact disassemble_encode h
  case offsets_read => exact ⟨_, hread, by rw [map_offset_mapIdx, hoffsets]⟩
  case branches_read =>
    intro index instruction target hinstruction htarget
    have hmem := (exists_encode_iff.mp ⟨code, h⟩).target_lt hinstruction htarget
    refine ⟨_, storedAt instructions index instruction, branchDistance instructions index target,
      offsetAt instructions target, hread, ?_, ?_, rfl, hoffset target hmem, ?_⟩
    · rw [List.getElem?_mapIdx, hinstruction, Option.map_some]
    · rw [storedAt, htarget, storedOperand]
    · exact add_branchDistance
  case offsets_increase =>
    rw [hoffsets]
    exact (List.pairwise_append.mp (pairwise_boundaries instructions)).1
  case offsets_length => simp [hoffsets]
  case offsets_eq => exact hoffset
  case offsetOf_length =>
    rw [EncodedCode.offsetOf?, if_pos (by simp [hoffsets])]
    rfl
  case size_eq => exact hsize

end HotPatch.Code
