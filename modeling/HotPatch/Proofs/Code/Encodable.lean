import HotPatch.Proofs.Code.Boundaries

/-!
# Code that can be encoded

Instructions can be encoded exactly if each stands below the limit, and each
has an operand of the kind that its opcode declares, with a variable that fits
the width or a target that is an instruction within reach.
-/

namespace HotPatch.Code

variable {instructions : List Instruction} {instruction : Instruction} {all : Array Nat} {index start : Nat}

/-- How far a target lies behind the end of the instruction with an index. -/
def branchDistance (instructions : List Instruction) (index target : Nat) : Int :=
  offsetAt instructions target - offsetAt instructions (index + 1)

theorem add_branchDistance {target : Nat} :
    (offsetAt instructions (index + 1) : Int) + branchDistance instructions index target =
      offsetAt instructions target := by
  rw [branchDistance]
  omega

/-- The operand of the instruction with an index is of the kind and fits its width. -/
inductive OperandFits (instructions : List Instruction) (index : Nat) : OperandKind → Operand → Prop
  | none : OperandFits instructions index .none .none
  | int8 (value : Int8) : OperandFits instructions index .int8 (.immediate (.int8 value))
  | int32 (value : Int32) : OperandFits instructions index .int32 (.immediate (.int32 value))
  | int64 (value : Int64) : OperandFits instructions index .int64 (.immediate (.int64 value))
  | float64 (bits : UInt64) : OperandFits instructions index .float64 (.immediate (.float64 bits))
  | uint8 {slot : UInt16} (narrow : slot.toNat < 0x100) : OperandFits instructions index .uint8 (.variable slot)
  | uint16 (slot : UInt16) : OperandFits instructions index .uint16 (.variable slot)
  | token (token : Token) : OperandFits instructions index .token (.token token)
  | shortTarget {target : Nat} (mem : target < instructions.length)
      (lower : -0x80 ≤ branchDistance instructions index target)
      (upper : branchDistance instructions index target < 0x80) :
      OperandFits instructions index .shortTarget (.target target)
  | target {target : Nat} (mem : target < instructions.length)
      (lower : -0x80000000 ≤ branchDistance instructions index target)
      (upper : branchDistance instructions index target < 0x80000000) :
      OperandFits instructions index .target (.target target)

/-- Offsets and operands fit. -/
structure Encodable (instructions : List Instruction) : Prop where
  offsets : ∀ index < instructions.length, offsetAt instructions index < codeLimit
  operands : ∀ index instruction, instructions[index]? = some instruction →
    OperandFits instructions index instruction.info.operand instruction.operand

theorem OperandFits.target_lt {kind : OperandKind} {target : Nat}
    (h : OperandFits instructions index kind (.target target)) : target < instructions.length := by
  cases h with
  | shortTarget hmem => exact hmem
  | target hmem => exact hmem

theorem Encodable.target_lt {target : Nat} (h : Encodable instructions)
    (hinstruction : instructions[index]? = some instruction) (htarget : instruction.operand = .target target) :
    target < instructions.length := by
  have hfits := h.operands index instruction hinstruction
  rw [htarget] at hfits
  exact hfits.target_lt

theorem distance_eq_ok {target next : Nat} {far : Int} :
    distance (offsetsFrom 0 instructions).toArray target next = .ok far ↔
      target < instructions.length ∧ far = offsetAt instructions target - next := by
  unfold distance
  rw [List.getElem?_toArray]
  by_cases h : target < instructions.length
  · rw [getElem?_offsetsFrom h]
    simp [h, eq_comm]
  · rw [List.getElem?_eq_none (by simpa using h)]
    simp [h]

theorem exists_operandBytes_iff :
    (∃ bytes, operandBytes (offsetsFrom 0 instructions).toArray index (offsetAt instructions (index + 1))
      instruction = .ok bytes) ↔ OperandFits instructions index instruction.info.operand instruction.operand := by
  unfold operandBytes
  constructor
  · rintro ⟨bytes, h⟩
    split at h
    case h_11 => cases h
    all_goals
      rename_i hkind hoperand
      rw [hkind, hoperand]
    case h_6 =>
      split_ifs at h with hnarrow
      · exact .uint8 hnarrow
      · cases h
    case h_9 =>
      obtain ⟨far, hfar, h⟩ := bind_eq_ok.mp h
      obtain ⟨hmem, rfl⟩ := distance_eq_ok.mp hfar
      split_ifs at h with hreach
      · exact .shortTarget hmem hreach.1 hreach.2
      · cases h
    case h_10 =>
      obtain ⟨far, hfar, h⟩ := bind_eq_ok.mp h
      obtain ⟨hmem, rfl⟩ := distance_eq_ok.mp hfar
      split_ifs at h with hreach
      · exact .target hmem hreach.1 hreach.2
      · cases h
    all_goals constructor
  · intro h
    generalize instruction.info.operand = kind at h ⊢
    generalize instruction.operand = operand at h ⊢
    cases h with
    | uint8 hnarrow => exact ⟨_, if_pos hnarrow⟩
    | shortTarget hmem hlower hupper =>
      exact ⟨_, bind_eq_ok.mpr ⟨_, distance_eq_ok.mpr ⟨hmem, rfl⟩, if_pos ⟨hlower, hupper⟩⟩⟩
    | target hmem hlower hupper =>
      exact ⟨_, bind_eq_ok.mpr ⟨_, distance_eq_ok.mpr ⟨hmem, rfl⟩, if_pos ⟨hlower, hupper⟩⟩⟩
    | _ => exact ⟨_, rfl⟩

/-- Instructions are encoded if the operand of each is. -/
theorem exists_encodeFrom_iff :
    (∃ bytes, encodeFrom all index instructions (offsetsFrom start instructions) = .ok bytes) ↔
      ∀ position instruction, instructions[position]? = some instruction →
        ∃ bytes, operandBytes all (index + position) (start + offsetAt instructions (position + 1)) instruction =
          .ok bytes := by
  induction instructions generalizing index start with
  | nil => simp [encodeFrom]
  | cons instruction instructions ih =>
    rw [offsetsFrom, encodeFrom]
    constructor
    · rintro ⟨bytes, h⟩ position other hother
      obtain ⟨head, hhead, h⟩ := bind_eq_ok.mp h
      obtain ⟨rest, hrest, -⟩ := bind_eq_ok.mp h
      obtain ⟨operand, hoperand, -⟩ := bind_eq_ok.mp hhead
      cases position with
      | zero =>
        cases hother
        exact ⟨operand, by simpa using hoperand⟩
      | succ position =>
        have hothers := ih.mp ⟨rest, hrest⟩ position other hother
        rwa [Nat.add_right_comm, Nat.add_assoc start, ← offsetAt_cons] at hothers
    · intro h
      obtain ⟨operand, hoperand⟩ := h 0 instruction rfl
      obtain ⟨rest, hrest⟩ := ih.mpr fun position other hother => by
        have hothers := h (position + 1) other hother
        rwa [offsetAt_cons, ← Nat.add_assoc start, ← Nat.add_assoc index, Nat.add_right_comm index] at hothers
      exact ⟨_, bind_eq_ok.mpr ⟨_, bind_eq_ok.mpr ⟨operand, by simpa using hoperand, rfl⟩,
        bind_eq_ok.mpr ⟨rest, hrest, rfl⟩⟩⟩

theorem offsets_eq_ok {found : List Nat} : offsets instructions = .ok found ↔
    found = offsetsFrom 0 instructions ∧ ∀ index < instructions.length, offsetAt instructions index < codeLimit := by
  have hall : (offsetsFrom 0 instructions).all (· < codeLimit) = true ↔
      ∀ index < instructions.length, offsetAt instructions index < codeLimit := by
    simp [offsetsFrom_zero]
  rw [offsets, ← hall]
  split_ifs with h
  · simp [h, eq_comm]
  · simp [h, malformed]

/-- Code that stays below the limit can fail to encode only because of an operand. -/
theorem encode_of_fits {bytes : Bytes} (hsize : codeSize instructions < codeLimit)
    (h : encodeFrom (offsetsFrom 0 instructions).toArray 0 instructions (offsetsFrom 0 instructions) =
      .ok bytes) : encode instructions = .ok ⟨bytes, (offsetsFrom 0 instructions).toArray⟩ := by
  have hbelow : ∀ index < instructions.length, offsetAt instructions index < codeLimit :=
    fun _ hindex => (offsetAt_le_codeSize hindex.le).trans_lt hsize
  exact bind_eq_ok.mpr ⟨_, offsets_eq_ok.mpr ⟨rfl, hbelow⟩, bind_eq_ok.mpr ⟨bytes, h, rfl⟩⟩

theorem exists_encode_iff : (∃ code, encode instructions = .ok code) ↔ Encodable instructions := by
  have hoperands : (∃ bytes, encodeFrom (offsetsFrom 0 instructions).toArray 0 instructions
      (offsetsFrom 0 instructions) = .ok bytes) ↔ ∀ index instruction, instructions[index]? = some instruction →
        OperandFits instructions index instruction.info.operand instruction.operand := by
    simp only [exists_encodeFrom_iff, Nat.zero_add, exists_operandBytes_iff]
  constructor
  · rintro ⟨code, h⟩
    constructor
    case operands => exact hoperands.mp ⟨code.bytes, (encode_ok h).2.2⟩
    case offsets =>
      obtain ⟨found, hfound, -⟩ := bind_eq_ok.mp h
      exact (offsets_eq_ok.mp hfound).2
  · rintro ⟨hoffsets, hfits⟩
    obtain ⟨bytes, hbytes⟩ := hoperands.mpr hfits
    exact ⟨_, bind_eq_ok.mpr ⟨_, offsets_eq_ok.mpr ⟨rfl, hoffsets⟩, bind_eq_ok.mpr ⟨bytes, hbytes, rfl⟩⟩⟩

end HotPatch.Code
