import HotPatch.Proofs.Body.Insertion
import HotPatch.Proofs.Code.DepthCertificate
import HotPatch.Proofs.Code.Encodable

/-!
# A return in front of a body

All instructions move by one place and by one byte, and all references with
them, so distances stay and operands stay as they are. The depths move along.
Only the return is entered from outside, with an empty stack, as is right for a
method that returns no value.
-/

namespace HotPatch

open Code

variable {position : Nat} {instruction : Instruction} {body : Body}

/-- The instruction that returns without a value. -/
def returnInstruction : Instruction := { opcode := .ret }

/-- The body with a return in front. -/
def Body.returning (body : Body) : Body :=
  { body with
    instructions := returnInstruction :: body.instructions.map (·.shift 0)
    handlers := body.handlers.map (·.shift 0) }

theorem Body.insert_return (body : Body) : body.insert 0 returnInstruction = .ok body.returning :=
  if_pos (Nat.zero_le _)

theorem Body.length_returning (body : Body) :
    body.returning.instructions.length = body.instructions.length + 1 := by
  simp [returning]

section Shift

theorem shiftStart_zero (h : position + 1 < indexLimit) : shiftStart 0 position = position + 1 := by
  rw [shiftStart, if_pos (Nat.zero_le _), Nat.mod_eq_of_lt h]

theorem shiftEnd_zero (hpos : 0 < position) (h : position + 1 < indexLimit) :
    shiftEnd 0 position = position + 1 := by
  rw [shiftEnd, if_pos hpos, Nat.mod_eq_of_lt h]

theorem Body.codeSize_returning (body : Body) :
    codeSize body.returning.instructions = codeSize body.instructions + 1 := by
  rw [returning, codeSize_cons, codeSize_shift, Nat.add_comm]
  rfl

theorem offsetsFrom_shift (start : Nat) (instructions : List Instruction) :
    offsetsFrom (start + 1) (instructions.map (·.shift 0)) = (offsetsFrom start instructions).map (· + 1) := by
  induction instructions generalizing start with
  | nil => rfl
  | cons instruction instructions ih =>
    rw [List.map_cons, offsetsFrom, offsetsFrom, List.map_cons, ← ih, Instruction.shift_size,
      Nat.add_right_comm]

end Shift

section Operands

variable {all all' : Array Nat} {index next start : Nat} {bytes : Bytes}
  (hall : ∀ target offset, all[target]? = some offset → all'[target + 1]? = some (offset + 1))
  (hsize : all.size < indexLimit)

include hall hsize

theorem distance_shift {target : Nat} {far : Int} (h : distance all target next = .ok far) :
    distance all' (shiftStart 0 target) (next + 1) = .ok far := by
  unfold distance at h ⊢
  split at h
  · rename_i offset ho
    cases h
    obtain ⟨hlt, -⟩ := Array.getElem?_eq_some_iff.mp ho
    rw [shiftStart_zero (by omega), hall target offset ho, Except.ok.injEq]
    push_cast
    omega
  · cases h

/-- The operand stays as it is, since a branch and its target move together. -/
theorem operandBytes_shift (h : operandBytes all index next instruction = .ok bytes) :
    operandBytes all' (index + 1) (next + 1) (instruction.shift 0) = .ok bytes := by
  rcases ht : instruction.target? with - | target
  · rw [Instruction.shift_of_no_target 0 ht, ← operandBytes_of_no_target ht, h]
  · rw [Instruction.target?_eq_some] at ht
    rw [Instruction.shift_of_target 0 ht]
    unfold operandBytes at h ⊢
    rw [ht] at h
    unfold Instruction.info at h ⊢
    rcases hk : instruction.opcode.info.operand <;> rw [hk] at h
    case shortTarget =>
      obtain ⟨far, hf, h⟩ := bind_eq_ok.mp h
      refine bind_eq_ok.mpr ⟨far, distance_shift hall hsize hf, ?_⟩
      split_ifs at h ⊢ with hr
      · exact h
      · cases h
    case target =>
      obtain ⟨far, hf, h⟩ := bind_eq_ok.mp h
      refine bind_eq_ok.mpr ⟨far, distance_shift hall hsize hf, ?_⟩
      split_ifs at h ⊢ with hr
      · exact h
      · cases h
    all_goals cases h

theorem encodeFrom_shift {instructions : List Instruction}
    (h : encodeFrom all index instructions (offsetsFrom start instructions) = .ok bytes) :
    encodeFrom all' (index + 1) (instructions.map (·.shift 0))
      (offsetsFrom (start + 1) (instructions.map (·.shift 0))) = .ok bytes := by
  induction instructions generalizing index start bytes with
  | nil => exact h
  | cons instruction instructions ih =>
    rw [offsetsFrom, encodeFrom] at h
    obtain ⟨head, hh, h⟩ := bind_eq_ok.mp h
    obtain ⟨operand, ho, hh⟩ := bind_eq_ok.mp hh
    obtain ⟨rest, hr, h⟩ := bind_eq_ok.mp h
    have hoperand := operandBytes_shift hall hsize ho
    rw [Nat.add_right_comm] at hoperand
    have hrest := ih hr
    rw [Nat.add_right_comm start] at hrest
    rw [List.map_cons, offsetsFrom, encodeFrom, Instruction.shift_size]
    refine bind_eq_ok.mpr ⟨head, bind_eq_ok.mpr ⟨operand, ?_, ?_⟩, bind_eq_ok.mpr ⟨rest, hrest, h⟩⟩
    · rw [Instruction.shift_size]
      exact hoperand
    · rw [Instruction.shift_info]
      exact hh

end Operands

section Body

variable {code : EncodedCode}

theorem lt_indexLimit (h : codeSize body.returning.instructions < codeLimit) :
    body.instructions.length + 1 < indexLimit := by
  have hle := length_le_codeSize body.returning.instructions
  rw [Body.length_returning] at hle
  exact Nat.lt_trans (Nat.lt_of_le_of_lt hle h) (by decide)

theorem Handler.Filtered.shift {handler : Handler} {length : Nat} (h : handler.Filtered length)
    (hl : length + 1 < indexLimit) : (handler.shift 0).Filtered (length + 1) := by
  intro hf
  obtain ⟨start, hs, hle⟩ := h hf
  refine ⟨start + 1, ?_, by omega⟩
  simp only [Handler.shift, hs, Option.map_some]
  rw [shiftStart_zero (by omega)]

theorem checkTargets_returning (hl : body.instructions.length + 1 < indexLimit)
    (h : body.checkTargets = .ok ()) : body.returning.checkTargets = .ok () := by
  obtain ⟨htargets, hranged⟩ := Body.checkTargets_eq_ok.mp h
  apply Body.checkTargets_insert body.insert_return h
  case htargets =>
    intro old ho target ht
    have hlt := htargets old ho target ht
    omega
  case hbounds =>
    intro handler hh bound hb
    have hle := (hranged handler hh).bound_le hb
    omega
  case hnew =>
    intro target ht
    cases ht

/-- The code behind the byte of a return. -/
def Code.EncodedCode.behindReturn (code : EncodedCode) : EncodedCode :=
  ⟨0x2A :: code.bytes, (0 :: code.offsets.toList.map (· + 1)).toArray⟩

theorem encode_returning (h : Code.encode body.instructions = .ok code)
    (hsize : codeSize body.returning.instructions < codeLimit) :
    Code.encode body.returning.instructions = .ok code.behindReturn := by
  have hl := lt_indexLimit hsize
  obtain ⟨hoffsets, -, hbytes⟩ := Code.encode_ok h
  have hmoved : offsetsFrom 0 body.returning.instructions =
      0 :: (offsetsFrom 0 body.instructions).map (· + 1) := by
    rw [← offsetsFrom_shift]
    rfl
  have hall : ∀ target offset, (offsetsFrom 0 body.instructions).toArray[target]? = some offset →
      (offsetsFrom 0 body.returning.instructions).toArray[target + 1]? = some (offset + 1) := by
    intro target offset ho
    simpa [hmoved] using ho
  have hrest := encodeFrom_shift hall (by simpa using Nat.lt_of_succ_lt hl) hbytes
  have hcode := encode_of_fits hsize (bind_eq_ok.mpr ⟨_, rfl, bind_eq_ok.mpr ⟨_, hrest, rfl⟩⟩)
  rw [hmoved] at hcode
  rw [hcode, EncodedCode.behindReturn, hoffsets]
  rfl

/-- With a return in front, a body can still be encoded, if it does not grow too long. -/
theorem Body.Fits.returning (h : body.Fits code) (hsize : codeSize body.returning.instructions < codeLimit) :
    body.returning.Fits code.behindReturn := by
  have hl := lt_indexLimit hsize
  have hcode := encode_returning h.encodes hsize
  refine ⟨checkTargets_returning hl h.targets, hcode, ?_, ?_, fun handler hh => ?_⟩
  · rw [(Code.encode_ok hcode).2.1]
    exact hsize
  · simpa [Body.returning] using h.count
  · obtain ⟨old, ho, rfl⟩ := List.mem_map.mp hh
    rw [Body.length_returning]
    exact (h.filtered old ho).shift hl

end Body

section Depths

variable {signature : Token → Result MethodSig} {bound : Nat} {depths : Nat → Option Nat}

/-- The depths behind the return. -/
def behindReturn (depths : Nat → Option Nat) : Nat → Option Nat
  | 0 => some 0
  | index + 1 => depths index

theorem stackEffect_shift (returnsValue : Bool) (depth index : Nat) (instruction : Instruction) :
    stackEffect signature returnsValue depth (instruction.shift index) =
      stackEffect signature returnsValue depth instruction := by
  simp only [stackEffect, Instruction.shift_info, Instruction.shift_token?, Instruction.shift_opcode]

theorem steps_return : Steps signature false bound 0 returnInstruction 0 where
  effect := ⟨0, 0, rfl, Nat.le_refl 0, rfl⟩
  before_le := Nat.zero_le bound
  after_le := Nat.zero_le bound
  returned _ := rfl

theorem mem_successors_shift {index successor : Nat}
    (h : successor ∈ successors (index + 1) (instruction.shift 0)) :
    ∃ old ∈ successors index instruction, successor = old + 1 ∨ successor = shiftStart 0 old := by
  unfold successors at h ⊢
  rw [Instruction.shift_info, Instruction.shift_target?] at h
  rcases hf : instruction.info.flow <;> rw [hf] at h
  case sequential | call =>
    exact ⟨index + 1, by simp, .inl (List.mem_singleton.mp h)⟩
  case conditionalBranch =>
    rcases List.mem_append.mp h with h | h
    · obtain ⟨target, ht, rfl⟩ := Option.map_eq_some_iff.mp (Option.mem_toList.mp h)
      exact ⟨target, by simp [ht], .inr rfl⟩
    · exact ⟨index + 1, by simp, .inl (List.mem_singleton.mp h)⟩
  case unconditionalBranch | leave =>
    obtain ⟨target, ht, rfl⟩ := Option.map_eq_some_iff.mp (Option.mem_toList.mp h)
    exact ⟨target, by simp [ht], .inr rfl⟩
  all_goals cases h

/-- The depths move along with the instructions. -/
theorem Code.Certificate.returning (h : Certificate signature false body bound depths)
    (hl : body.instructions.length + 1 < indexLimit) :
    Certificate signature false body.returning bound (behindReturn depths) := by
  have hmoved : ∀ index depth, depths index = some depth →
      behindReturn depths (shiftStart 0 index) = some depth := by
    intro index depth hd
    obtain ⟨instruction, -, hi, -⟩ := h.passes index depth hd
    have hlt := (List.getElem?_eq_some_iff.mp hi).1
    rw [shiftStart_zero (by omega)]
    exact hd
  constructor
  · intro entry hm
    simp only [entries, Body.returning, List.isEmpty_cons, Bool.false_eq_true, if_false, List.mem_append,
      List.mem_flatMap, List.mem_map] at hm
    rcases hm with hm | ⟨handler, ⟨old, ho, rfl⟩, hm⟩
    · rw [List.mem_singleton.mp hm]
      rfl
    · have hold : ∀ entry ∈ (old.handlerStart, old.entryDepth) :: (old.filterStart.map (·, 1)).toList,
          depths entry.1 = some entry.2 := fun entry he =>
        h.entered entry (List.mem_append_right _ (List.mem_flatMap.mpr ⟨old, ho, he⟩))
      rcases List.mem_cons.mp hm with rfl | hm
      · exact hmoved _ _ (hold (old.handlerStart, old.entryDepth) List.mem_cons_self)
      · simp only [Handler.shift, Option.map_map, Option.mem_toList, Option.map_eq_some_iff] at hm
        obtain ⟨start, hs, rfl⟩ := hm
        exact hmoved start 1 (hold (start, 1) (by simp [hs]))
  · intro index depth hd
    rcases index with - | index
    · cases hd
      refine ⟨returnInstruction, 0, rfl, steps_return, fun successor hs => ?_⟩
      cases hs
    · obtain ⟨instruction, after, hi, ⟨heffect, hbefore, hafter, hreturned⟩, hnext⟩ := h.passes index depth hd
      refine ⟨instruction.shift 0, after, ?_, ⟨?_, hbefore, hafter, ?_⟩, fun successor hs => ?_⟩
      · simp [Body.returning, hi]
      · rw [stackEffect_shift]
        exact heffect
      · rw [Instruction.shift_info]
        exact hreturned
      · obtain ⟨old, ho, rfl | rfl⟩ := mem_successors_shift hs
        · exact hnext old ho
        · exact hmoved old after (hnext old ho)

end Depths
end HotPatch
