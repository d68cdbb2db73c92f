import HotPatch.Proofs.Body.Encoding
import HotPatch.Proofs.Code.Assembly
import HotPatch.Proofs.Code.DepthCertificate
import HotPatch.Proofs.Code.Encodable

/-!
# Assembled bodies

The assembler keeps count of the stack in the same way as the analysis, as long
as it is told what the analysis finds out about each instruction. The depths
that it went through are then a certificate for the finished body.
-/

namespace HotPatch

open Code

variable {signature : Token → Result MethodSig} {returnsValue : Bool} {asm asm' : Assembler}
  {instruction : Instruction} {levels : List Nat}

/-- The instruction is followed by the next one, its operand can be encoded anywhere, and it comes
from no source text. -/
structure Code.Instruction.Plain (instruction : Instruction) : Prop where
  flow : instruction.info.flow = .sequential ∨ instruction.info.flow = .call
  target : instruction.target? = none
  operand : ∃ bytes, operandBytes #[] 0 0 instruction = .ok bytes
  point : instruction.point = none

theorem Code.Instruction.Plain.successors (h : instruction.Plain) (index : Nat) :
    Code.successors index instruction = [index + 1] := by
  unfold Code.successors
  rcases h.flow with hf | hf <;> rw [hf]

/-- The instruction is plain, and its effect on the stack does not depend on the depth. -/
structure Code.Instruction.Acts (signature : Token → Result MethodSig) (returnsValue : Bool)
    (instruction : Code.Instruction) (pops pushes : Nat) : Prop extends instruction.Plain where
  effect : ∀ depth, stackEffect signature returnsValue depth instruction = .ok (pops, pushes)

section Instructions

open Code.Instruction (Acts)

variable {token : Token} {sig : MethodSig}

theorem acts_dup : Acts signature returnsValue { opcode := .dup } 1 2 :=
  ⟨⟨.inl rfl, rfl, ⟨_, rfl⟩, rfl⟩, fun _ => rfl⟩

theorem acts_ldtoken : Acts signature returnsValue (.withToken .ldtoken token) 0 1 :=
  ⟨⟨.inl rfl, rfl, ⟨_, rfl⟩, rfl⟩, fun _ => rfl⟩

theorem acts_loadArgument (index : UInt16) : Acts signature returnsValue (Assembler.loadArgument index) 0 1 := by
  have hshort : index < 256 → Acts signature returnsValue (.withVariable .ldargS index) 0 1 := fun hsmall =>
    ⟨⟨.inl rfl, rfl, ⟨[index.toUInt8], if_pos (UInt16.lt_iff_toNat_lt.mp hsmall)⟩, rfl⟩, fun _ => rfl⟩
  unfold Assembler.loadArgument
  split_ifs with _ _ _ _ hsmall
  on_goal 5 => exact hshort hsmall
  all_goals exact ⟨⟨.inl rfl, rfl, ⟨_, rfl⟩, rfl⟩, fun _ => rfl⟩

variable (hs : signature token = .ok sig)

include hs

theorem acts_call : Acts signature returnsValue (.withToken .call token) sig.argumentSlots (Assembler.results sig) :=
  ⟨⟨.inr rfl, rfl, ⟨_, rfl⟩, rfl⟩, fun _ => map_eq_ok.mpr ⟨sig, hs, rfl⟩⟩

theorem acts_callvirt :
    Acts signature returnsValue (.withToken .callvirt token) sig.argumentSlots (Assembler.results sig) :=
  ⟨⟨.inr rfl, rfl, ⟨_, rfl⟩, rfl⟩, fun _ => map_eq_ok.mpr ⟨sig, hs, rfl⟩⟩

theorem acts_newobj : Acts signature returnsValue (.withToken .newobj token) sig.constructorSlots 1 :=
  ⟨⟨.inr rfl, rfl, ⟨_, rfl⟩, rfl⟩, fun _ => map_eq_ok.mpr ⟨sig, hs, rfl⟩⟩

end Instructions

/-- The depths that the assembler went through, the present one at the end. -/
structure Code.Assembler.Traced (signature : Token → Result MethodSig) (returnsValue : Bool)
    (asm : Assembler) (levels : List Nat) : Prop where
  length : levels.length = asm.instructions.toList.length + 1
  first : levels[0]? = some 0
  last : levels[asm.instructions.toList.length]? = some asm.depth
  depth_le : asm.depth ≤ asm.maxDepth
  steps : ∀ index instruction, asm.instructions.toList[index]? = some instruction → ∃ depth after,
    levels[index]? = some depth ∧ levels[index + 1]? = some after ∧
      Steps signature returnsValue asm.maxDepth depth instruction after
  plain : ∀ instruction ∈ asm.instructions.toList, instruction.Plain

namespace Code.Assembler.Traced

theorem start : Traced signature returnsValue {} [0] where
  length := rfl
  first := rfl
  last := rfl
  depth_le := Nat.le_refl 0
  steps _ _ h := by simp at h
  plain _ h := by simp at h

/-- An instruction of which the assembler knows the effect. -/
theorem emit {pops pushes : Nat} (h : asm.Traced signature returnsValue levels)
    (he : asm.emit instruction pops pushes = .ok asm') (hp : instruction.Plain)
    (heffect : stackEffect signature returnsValue asm.depth instruction = .ok (pops, pushes)) :
    asm'.Traced signature returnsValue (levels ++ [asm'.depth]) := by
  obtain ⟨henough, hinstructions, hdepth, hmax⟩ := emit_ok he
  have hmore : asm.maxDepth ≤ asm'.maxDepth := by omega
  have hlength := h.length
  have hlast : (levels ++ [asm'.depth])[asm.instructions.toList.length + 1]? = some asm'.depth := by
    rw [← hlength, List.getElem?_concat_length]
  have hbefore : ∀ {index depth : Nat}, levels[index]? = some depth →
      (levels ++ [asm'.depth])[index]? = some depth := by
    intro index depth ht
    rw [List.getElem?_append_left (List.getElem?_eq_some_iff.mp ht).1, ht]
  constructor
  case length => simp [hinstructions, hlength]
  case first => exact hbefore h.first
  case last => rwa [hinstructions, List.length_append, List.length_singleton]
  case depth_le => omega
  case plain =>
    intro other ho
    rw [hinstructions, List.mem_append, List.mem_singleton] at ho
    rcases ho with ho | rfl
    · exact h.plain other ho
    · exact hp
  case steps =>
    intro index other ho
    rw [hinstructions, List.getElem?_append] at ho
    split_ifs at ho with hi
    · obtain ⟨depth, after, hd, ha, hstep⟩ := h.steps index other ho
      exact ⟨depth, after, hbefore hd, hbefore ha, hstep.mono (fun _ _ => id) hmore⟩
    · obtain ⟨hlt, rfl⟩ := List.getElem?_eq_some_iff.mp ho
      have hindex : index = asm.instructions.toList.length := by
        rw [List.length_singleton] at hlt
        omega
      subst hindex
      have hle := h.depth_le
      refine ⟨asm.depth, asm'.depth, hbefore h.last, hlast, ⟨pops, pushes, ?_, henough, hdepth⟩, by omega,
        by omega, fun hf => ?_⟩
      · simpa using heffect
      · rcases hp.flow with hs | hs <;> simp [hs] at hf

/-- The code with a return behind it, when the depth is right for it. What follows the return is not reached. -/
theorem certificate {body : Body} {dead : List Instruction} (h : asm.Traced signature returnsValue levels)
    (hreturn : asm.depth = returnsValue.toNat)
    (hinstructions : body.instructions = asm.instructions.toList ++ { opcode := .ret } :: dead)
    (hhandlers : body.handlers = []) :
    Certificate signature returnsValue body asm.maxDepth (levels[·]?) := by
  constructor
  · intro entry hm
    have hne : body.instructions ≠ [] := by simp [hinstructions]
    simp only [entries, hhandlers, List.flatMap_nil, List.append_nil, List.isEmpty_iff, hne, if_false,
      List.mem_singleton] at hm
    rw [hm]
    exact h.first
  · intro index depth hd
    obtain ⟨hlt, -⟩ := List.getElem?_eq_some_iff.mp hd
    rw [h.length] at hlt
    by_cases hi : index < asm.instructions.toList.length
    · have hinstruction := List.getElem?_eq_getElem hi
      obtain ⟨depth', after, hd', ha, hstep⟩ := h.steps index _ hinstruction
      obtain rfl : depth = depth' := Option.some.inj (hd.symm.trans hd')
      refine ⟨_, after, ?_, hstep, fun successor hs => ?_⟩
      · rw [hinstructions, List.getElem?_append_left hi, hinstruction]
      · rw [(h.plain _ (List.getElem_mem hi)).successors, List.mem_singleton] at hs
        rw [hs]
        exact ha
    · obtain rfl : index = asm.instructions.toList.length := by omega
      rw [h.last, Option.some.injEq] at hd
      subst hd
      have hle := h.depth_le
      refine ⟨{ opcode := .ret }, 0, ?_, ⟨⟨returnsValue.toNat, 0, rfl, ?_, ?_⟩, hle, Nat.zero_le _, fun _ => rfl⟩,
        fun successor hs => ?_⟩
      · rw [hinstructions, List.getElem?_append_right (Nat.le_refl _), Nat.sub_self, List.getElem?_cons_zero]
      · exact hreturn.ge
      · rw [← hreturn, depthAfter_self]
      · cases hs

end Code.Assembler.Traced

section Encoding

variable {instructions : List Instruction}

theorem exists_encodeFrom (h : ∀ instruction ∈ instructions, instruction.target? = none ∧
      ∃ bytes, operandBytes #[] 0 0 instruction = .ok bytes) (all : Array Nat) (index start : Nat) :
    ∃ bytes, encodeFrom all index instructions (offsetsFrom start instructions) = .ok bytes := by
  rw [exists_encodeFrom_iff]
  intro position instruction hinstruction
  obtain ⟨htarget, hoperand⟩ := h instruction (List.mem_of_getElem? hinstruction)
  rwa [operandBytes_of_no_target htarget] at hoperand

/-- Straight code without protected regions can be encoded. -/
theorem Body.fits_of_plain {body : Body}
    (hinstructions : body.instructions = instructions ++ [{ opcode := .ret }]) (hhandlers : body.handlers = [])
    (hplain : ∀ instruction ∈ instructions, instruction.Plain)
    (hsize : codeSize body.instructions < codeLimit) : ∃ code, body.Fits code := by
  have hall : ∀ instruction ∈ body.instructions, instruction.target? = none ∧
      ∃ bytes, operandBytes #[] 0 0 instruction = .ok bytes := by
    intro instruction hi
    rw [hinstructions, List.mem_append, List.mem_singleton] at hi
    rcases hi with hi | rfl
    · exact ⟨(hplain instruction hi).target, (hplain instruction hi).operand⟩
    · exact ⟨rfl, [], rfl⟩
  obtain ⟨bytes, hb⟩ := exists_encodeFrom hall (offsetsFrom 0 body.instructions).toArray 0 0
  have hencoded := encode_of_fits hsize hb
  refine ⟨_, checkTargets_eq_ok.mpr ⟨fun instruction hi target ht => ?_, by simp [hhandlers]⟩, hencoded, ?_,
    by rw [hhandlers]; decide, by simp [hhandlers]⟩
  · rw [(hall instruction hi).1] at ht
    cases ht
  · rw [(Code.encode_ok hencoded).2.1]
    exact hsize

end Encoding
end HotPatch
