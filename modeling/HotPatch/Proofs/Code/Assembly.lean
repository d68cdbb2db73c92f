import HotPatch.Code.Assembler
import HotPatch.Proofs.Results

/-!
# Assembled code

Each step of the assembler appends one instruction and moves the depth of the
stack by what the instruction takes and leaves.
-/

namespace HotPatch

/-- Counts of slots are 16 bits wide. -/
theorem MethodSig.argumentSlots_lt (sig : MethodSig) : sig.argumentSlots < 2 ^ 16 :=
  Nat.lt_succ_of_le (min_le_left _ _)

namespace Code.Assembler

variable {asm asm' : Assembler} {instruction : Instruction} {pops pushes : Nat}

theorem results_eq (sig : MethodSig) : results sig = (!sig.returnType.isVoid).toNat := by
  unfold results
  cases sig.returnType.isVoid <;> rfl

theorem results_le_one (sig : MethodSig) : results sig ≤ 1 := by
  rw [results_eq]
  exact Bool.toNat_le _

/-- What one step of the assembler does. -/
structure Emits (asm : Assembler) (instruction : Instruction) (pops pushes : Nat) (asm' : Assembler) :
    Prop where
  enough : pops ≤ asm.depth
  instructions : asm'.instructions.toList = asm.instructions.toList ++ [instruction]
  depth : asm'.depth = depthAfter asm.depth pops pushes
  maxDepth : asm'.maxDepth = max asm.maxDepth asm'.depth

theorem emit_ok (h : asm.emit instruction pops pushes = .ok asm') :
    asm.Emits instruction pops pushes asm' := by
  unfold emit at h
  split_ifs at h with hd
  · cases h
  · cases h
    exact ⟨by omega, Array.toList_push, rfl, rfl⟩

/-- A return takes all that is left, which is one value at most. -/
theorem ret_ok (h : asm.ret = .ok asm') :
    asm.Emits { opcode := .ret } asm.depth 0 asm' ∧ asm.depth ≤ 1 := by
  unfold ret at h
  split_ifs at h with hd
  · cases h
  · exact ⟨emit_ok h, by omega⟩

theorem finish_ok {instructions : List Instruction} {maxDepth : Nat}
    (h : asm.finish = .ok (instructions, maxDepth)) :
    instructions = asm.instructions.toList ∧ maxDepth = asm.maxDepth := by
  unfold finish at h
  split at h
  · cases h
  · split_ifs at h
    · cases h
      exact ⟨rfl, rfl⟩
    · cases h

end Code.Assembler
end HotPatch
