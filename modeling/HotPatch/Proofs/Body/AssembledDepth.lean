import HotPatch.Proofs.Body.StraightLine
import Mathlib.Data.List.Infix

/-!
# The depth of assembled code

The assembler counts the depth of the stack while it emits instructions, and
goes on counting after a return; the analysis follows the control flow of the
finished code, and stops at the first return. The two are compared for any
sequence of calls of the assembler. A call that is refused leaves no trace, so
everything is said about the calls that are accepted.
-/

namespace HotPatch

open Code

variable {signature : Token → Result MethodSig} {returnsValue : Bool} {sig sig' : MethodSig}

/-- The two signatures act on the stack in the same way. -/
structure MethodSig.SameShape (sig sig' : MethodSig) : Prop where
  params : sig.params.length = sig'.params.length
  hasThis : sig.hasThis = sig'.hasThis
  isVoid : sig.returnType.isVoid = sig'.returnType.isVoid

namespace MethodSig.SameShape

theorem argumentSlots (h : sig.SameShape sig') : sig.argumentSlots = sig'.argumentSlots := by
  rw [MethodSig.argumentSlots, MethodSig.argumentSlots, h.params, h.hasThis]

theorem constructorSlots (h : sig.SameShape sig') : sig.constructorSlots = sig'.constructorSlots := by
  rw [MethodSig.constructorSlots, MethodSig.constructorSlots, h.params]

theorem results (h : sig.SameShape sig') : Assembler.results sig = Assembler.results sig' := by
  rw [Assembler.results, Assembler.results, h.isVoid]

end MethodSig.SameShape

namespace Code.Assembler

/-- A call of the assembler. -/
inductive Call where
  | nop
  | ldarg (index : UInt16)
  | ldnull
  | dup
  | pop
  | ldtoken (token : Token)
  | ldstr (token : Token)
  | call (method : Token) (sig : MethodSig)
  | callvirt (method : Token) (sig : MethodSig)
  | newobj (constructor : Token) (sig : MethodSig)
  | ret
  deriving DecidableEq, Repr

namespace Call

def run (asm : Assembler) : Call → Result Assembler
  | .nop => asm.nop
  | .ldarg index => asm.ldarg index
  | .ldnull => asm.ldnull
  | .dup => asm.dup
  | .pop => asm.pop
  | .ldtoken token => asm.ldtoken token
  | .ldstr token => asm.ldstr token
  | .call method sig => asm.call method sig
  | .callvirt method sig => asm.callvirt method sig
  | .newobj constructor sig => asm.newobj constructor sig
  | .ret => asm.ret

/-- The instruction that is emitted if the call is accepted. -/
def instruction : Call → Instruction
  | .nop => { opcode := .nop }
  | .ldarg index => loadArgument index
  | .ldnull => { opcode := .ldnull }
  | .dup => { opcode := .dup }
  | .pop => { opcode := .pop }
  | .ldtoken token => .withToken .ldtoken token
  | .ldstr token => .withToken .ldstr token
  | .call method _ => .withToken .call method
  | .callvirt method _ => .withToken .callvirt method
  | .newobj constructor _ => .withToken .newobj constructor
  | .ret => { opcode := .ret }

/-- How many values the instruction takes and leaves. A return takes what is there. -/
def effect : Call → Nat × Nat
  | .nop | .ret => (0, 0)
  | .ldarg _ | .ldnull | .ldtoken _ | .ldstr _ => (0, 1)
  | .dup => (1, 2)
  | .pop => (1, 0)
  | .call _ sig | .callvirt _ sig => (sig.argumentSlots, results sig)
  | .newobj _ sig => (sig.constructorSlots, 1)

/-- What the assembler is told about a method has the shape of what is known about it. -/
def Agrees (signature : Token → Result MethodSig) : Call → Prop
  | .call method sig | .callvirt method sig | .newobj method sig =>
    ∃ found, signature method = .ok found ∧ found.SameShape sig
  | _ => True

variable {call : Call} {asm asm' : Assembler}

theorem run_eq_emit (hne : call ≠ .ret) :
    call.run asm = asm.emit call.instruction call.effect.1 call.effect.2 := by
  cases call with
  | ret => exact absurd rfl hne
  | _ => rfl

/-- Whatever the call, its one instruction is emitted. -/
theorem emits (h : call.run asm = .ok asm') :
    ∃ pops pushes, asm.Emits call.instruction pops pushes asm' := by
  by_cases hne : call = .ret
  · subst hne
    exact ⟨_, _, (ret_ok h).1⟩
  · rw [run_eq_emit hne] at h
    exact ⟨_, _, emit_ok h⟩

/-- In the analysis, all instructions but a return have the effect with which they were emitted. -/
theorem acts (hne : call ≠ .ret) (ha : call.Agrees signature) :
    call.instruction.Acts signature returnsValue call.effect.1 call.effect.2 := by
  cases call with
  | nop | ldnull | pop | ldstr => exact ⟨⟨.inl rfl, rfl, ⟨_, rfl⟩, rfl⟩, fun _ => rfl⟩
  | ldarg index => exact acts_loadArgument index
  | dup => exact acts_dup
  | ldtoken token => exact acts_ldtoken
  | call method sig =>
    obtain ⟨found, hs, hshape⟩ := ha
    rw [effect, ← hshape.argumentSlots, ← hshape.results]
    exact acts_call hs
  | callvirt method sig =>
    obtain ⟨found, hs, hshape⟩ := ha
    rw [effect, ← hshape.argumentSlots, ← hshape.results]
    exact acts_callvirt hs
  | newobj method sig =>
    obtain ⟨found, hs, hshape⟩ := ha
    rw [effect, ← hshape.constructorSlots]
    exact acts_newobj hs
  | ret => exact absurd rfl hne

theorem opcode_eq_ret : call.instruction.opcode = .ret ↔ call = .ret := by
  cases call with
  | ldarg index =>
    simp only [instruction, reduceCtorEq, iff_false]
    unfold loadArgument
    split_ifs <;> exact fun h => nomatch h
  | _ => simp [instruction, Instruction.withToken]

theorem target_instruction : call.instruction.target? = none := by
  cases call with
  | ldarg index =>
    rw [instruction, loadArgument]
    split_ifs <;> rfl
  | _ => rfl

end Call

/-- The assembler after a call: if it is refused, the assembler is as before. -/
def perform (asm : Assembler) (call : Call) : Assembler := (call.run asm).toOption.getD asm

def performAll (calls : List Call) : Assembler := calls.foldl perform {}

/-- The calls that are accepted, one after another. -/
def acceptedFrom (asm : Assembler) : List Call → List Call
  | [] => []
  | call :: calls =>
    match call.run asm with
    | .ok next => call :: acceptedFrom next calls
    | .error _ => acceptedFrom asm calls

def accepted (calls : List Call) : List Call := acceptedFrom {} calls

/-- The accepted calls in front of the first return. -/
def beforeReturn (calls : List Call) : List Call := (accepted calls).takeWhile (· ≠ .ret)

/-- All calls are accepted. -/
def runAll (asm : Assembler) (calls : List Call) : Result Assembler :=
  calls.foldlM (fun asm call => call.run asm) asm

section Runs

variable {asm asm' : Assembler} {calls front : List Call} {call : Call}

theorem runAll_append : runAll asm (calls ++ front) = .ok asm' ↔
    ∃ middle, runAll asm calls = .ok middle ∧ runAll middle front = .ok asm' := by
  rw [runAll, List.foldlM_append, bind_eq_ok]
  rfl

theorem runAll_concat : runAll asm (calls ++ [call]) = .ok asm' ↔
    ∃ middle, runAll asm calls = .ok middle ∧ call.run middle = .ok asm' := by
  rw [runAll_append]
  simp only [runAll, List.foldlM_cons, List.foldlM_nil, bind_pure]

theorem perform_eq (h : call.run asm = .ok asm') : asm.perform call = asm' := by
  rw [perform, h]
  rfl

theorem foldl_perform (h : runAll asm calls = .ok asm') : calls.foldl perform asm = asm' := by
  induction calls generalizing asm with
  | nil =>
    cases h
    rfl
  | cons call calls ih =>
    obtain ⟨middle, hm, h⟩ := bind_eq_ok.mp h
    rw [List.foldl_cons, perform_eq hm, ih h]

/-- The accepted calls alone lead to the same assembler. -/
theorem runAll_acceptedFrom : runAll asm (acceptedFrom asm calls) = .ok (calls.foldl perform asm) := by
  induction calls generalizing asm with
  | nil => rfl
  | cons call calls ih =>
    rw [acceptedFrom, List.foldl_cons, perform]
    cases hrun : call.run asm with
    | error error => exact ih
    | ok next => exact bind_eq_ok.mpr ⟨next, hrun, ih⟩

theorem instructions_of_runAll (h : runAll asm calls = .ok asm') :
    asm'.instructions.toList = asm.instructions.toList ++ calls.map (·.instruction) := by
  induction calls generalizing asm with
  | nil =>
    cases h
    simp
  | cons call calls ih =>
    obtain ⟨middle, hm, h⟩ := bind_eq_ok.mp h
    obtain ⟨pops, pushes, hemits⟩ := Call.emits hm
    rw [ih h, hemits.instructions, List.append_assoc, List.map_cons, List.singleton_append]

theorem maxDepth_mono (h : runAll asm calls = .ok asm') : asm.maxDepth ≤ asm'.maxDepth := by
  induction calls generalizing asm with
  | nil =>
    cases h
    exact Nat.le_refl _
  | cons call calls ih =>
    obtain ⟨middle, hm, h⟩ := bind_eq_ok.mp h
    obtain ⟨pops, pushes, hemits⟩ := Call.emits hm
    have hstep := hemits.maxDepth
    have hrest := ih h
    omega

/-- The greatest depth is one that the assembler went through. -/
theorem isGreatest_maxDepth (h : runAll {} calls = .ok asm') :
    IsGreatest {depth | ∃ front, front <+: calls ∧ (performAll front).depth = depth} asm'.maxDepth := by
  induction calls using List.reverseRecOn generalizing asm' with
  | nil =>
    cases h
    refine ⟨⟨[], List.prefix_rfl, rfl⟩, ?_⟩
    rintro _ ⟨front, hf, rfl⟩
    rw [List.prefix_nil.mp hf]
    exact Nat.le_refl 0
  | append_singleton calls call ih =>
    obtain ⟨middle, hm, hc⟩ := runAll_concat.mp h
    obtain ⟨pops, pushes, hemits⟩ := Call.emits hc
    have hset : {depth | ∃ front, front <+: calls ++ [call] ∧ (performAll front).depth = depth} =
        insert asm'.depth {depth | ∃ front, front <+: calls ∧ (performAll front).depth = depth} := by
      ext depth
      simp only [List.prefix_concat_iff, Set.mem_ofPred_eq, Set.mem_insert_iff, or_and_right, exists_or,
        exists_eq_left]
      rw [performAll, foldl_perform h, eq_comm]
    rw [hset, hemits.maxDepth, max_comm]
    exact (ih hm).insert asm'.depth

end Runs

section Depths

variable {asm asm' : Assembler} {calls before after : List Call}

/-- In front of the first return, the assembler goes through the depths that the analysis finds. -/
theorem traced_of_runAll (h : runAll {} calls = .ok asm) (hret : .ret ∉ calls)
    (hagree : ∀ call ∈ calls, call.Agrees signature) :
    asm.Traced signature returnsValue (calls.inits.map fun front => (performAll front).depth) := by
  induction calls using List.reverseRecOn generalizing asm with
  | nil =>
    cases h
    exact .start
  | append_singleton calls call ih =>
    obtain ⟨middle, hm, hc⟩ := runAll_concat.mp h
    simp only [List.mem_append, List.mem_singleton, not_or] at hret
    have hne : call ≠ .ret := Ne.symm hret.2
    have hacts : call.instruction.Acts signature returnsValue call.effect.1 call.effect.2 :=
      Call.acts hne (hagree call (by simp))
    have hmiddle := ih hm hret.1 fun other ho => hagree other (by simp [ho])
    rw [Call.run_eq_emit hne] at hc
    have hnext := hmiddle.emit hc hacts.toPlain (hacts.effect middle.depth)
    have hwhole : performAll (calls ++ [call]) = asm := foldl_perform h
    simpa [List.inits_append, hwhole] using hnext

/-- Every certificate of the finished code has the depths that the assembler went through. -/
theorem Traced.depth_of_certificate {levels : List Nat} {body : Body} {dead : List Instruction} {bound : Nat}
    {depths : Nat → Option Nat} (h : asm.Traced signature returnsValue levels)
    (hc : Certificate signature returnsValue body bound depths)
    (hinstructions : body.instructions = asm.instructions.toList ++ { opcode := .ret } :: dead)
    {index depth : Nat} (hd : levels[index]? = some depth) : depths index = some depth := by
  induction index generalizing depth with
  | zero =>
    rw [h.first] at hd
    rw [← hd]
    exact hc.entered (0, 0) (by simp [entries, hinstructions])
  | succ index ih =>
    obtain ⟨hlt, -⟩ := List.getElem?_eq_some_iff.mp hd
    have hindex : index < asm.instructions.toList.length := by
      rw [h.length] at hlt
      omega
    have hfound := List.getElem?_eq_getElem hindex
    obtain ⟨before, after, hb, ha, hstep⟩ := h.steps index _ hfound
    obtain rfl : after = depth := Option.some.inj (ha.symm.trans hd)
    have hbody : body.instructions[index]? = some asm.instructions.toList[index] := by
      rw [hinstructions, List.getElem?_append_left hindex, hfound]
    obtain ⟨instruction, after', hi, hstep', hnext⟩ := hc.passes index before (ih hb)
    obtain rfl : asm.instructions.toList[index] = instruction := Option.some.inj (hbody.symm.trans hi)
    rw [hstep.unique hstep']
    exact hnext _ (by rw [(h.plain _ (List.getElem_mem hindex)).successors]; exact List.mem_singleton_self _)

/-- The last of the calls in a finished sequence is a return, so there is a first one. -/
theorem exists_append_ret {instructions : List Instruction} {maxStack : Nat}
    (hrun : runAll {} calls = .ok asm) (hfinish : asm.finish = .ok (instructions, maxStack)) :
    ∃ front, calls = front ++ [.ret] := by
  have hinstructions := instructions_of_runAll hrun
  unfold finish at hfinish
  split at hfinish
  · cases hfinish
  · rename_i last hlast
    split_ifs at hfinish with hret
    · rw [← Array.getLast?_toList, hinstructions, List.nil_append, List.getLast?_map, Option.map_eq_some_iff] at hlast
      obtain ⟨call, hc, rfl⟩ := hlast
      obtain ⟨front, rfl⟩ := List.getLast?_eq_some_iff.mp hc
      exact ⟨front, by rw [Call.opcode_eq_ret.mp hret]⟩
    · cases hfinish

theorem accepted_eq (h : .ret ∈ accepted calls) :
    ∃ after, accepted calls = beforeReturn calls ++ .ret :: after ∧ .ret ∉ beforeReturn calls := by
  obtain ⟨before, after, heq, hnot⟩ := List.eq_append_cons_of_mem h
  have hbefore : beforeReturn calls = before := by
    rw [beforeReturn, heq, List.takeWhile_append_of_pos]
    · simp
    · intro call hc
      rw [decide_eq_true_iff]
      rintro rfl
      exact hnot hc
  rw [hbefore]
  exact ⟨after, heq, hnot⟩

end Depths

section Agreement

variable {asm : Assembler} {calls after : List Call} {instructions : List Instruction} {maxStack : Nat} {body : Body}

/-- The analysis of code with one return finds the greatest depth in front of it. -/
theorem requiredStack_of_runAll {before : List Call} (hrun : runAll {} before = .ok asm) (hret : .ret ∉ before)
    (hagree : ∀ call ∈ before, call.Agrees signature) (hdepth : asm.depth = returnsValue.toNat)
    (hinstructions : body.instructions = (before ++ .ret :: after).map (·.instruction))
    (hhandlers : body.handlers = []) : body.requiredStack signature returnsValue = .ok asm.maxDepth := by
  have htraced : asm.Traced signature returnsValue _ := traced_of_runAll hrun hret hagree
  have hbody : body.instructions =
      asm.instructions.toList ++ { opcode := .ret } :: after.map (·.instruction) := by
    rw [hinstructions, List.map_append, List.map_cons, instructions_of_runAll hrun]
    rfl
  have htargets : body.checkTargets = .ok () := by
    refine Body.checkTargets_eq_ok.mpr ⟨fun instruction hi target ht => ?_, by simp [hhandlers]⟩
    rw [hinstructions] at hi
    obtain ⟨call, -, rfl⟩ := List.mem_map.mp hi
    rw [Call.target_instruction] at ht
    cases ht
  obtain ⟨required, hle, hr⟩ := (htraced.certificate hdepth hbody hhandlers).requiredStack htargets
  obtain ⟨-, depths, hc⟩ := certificate_of_requiredStack hr
  -- the greatest depth of the assembler stands in front of an instruction that the analysis visits
  obtain ⟨front, hf, hmax⟩ := (isGreatest_maxDepth hrun).1
  have hlevel : asm.maxDepth ∈ before.inits.map fun front => (performAll front).depth :=
    List.mem_map.mpr ⟨front, (List.mem_inits _ _).mpr hf, hmax⟩
  obtain ⟨index, hindex⟩ := List.mem_iff_getElem?.mp hlevel
  obtain ⟨_, _, _, hstep, _⟩ := hc.passes index _ (htraced.depth_of_certificate hc hbody hindex)
  rw [hr, le_antisymm hle hstep.before_le]

/-- The analysis of what the assembler has finished, whatever calls were made and refused, answers with
the greatest depth up to the first return that was accepted. The assembler may have counted more, but
only behind that return. Both count in 16 bits and wrap around alike, so they agree on the count of any
stack; where no depth is above `0xFFFF`, what they agree on is the depth itself. -/
theorem requiredStack_of_finish (hfinish : (performAll calls).finish = .ok (instructions, maxStack))
    (hagree : ∀ call ∈ beforeReturn calls, call.Agrees signature)
    (hvalue : returnsValue = true ↔ 0 < (performAll (beforeReturn calls)).depth)
    (hinstructions : body.instructions = instructions) (hhandlers : body.handlers = []) :
    beforeReturn calls ++ [.ret] <+: accepted calls ∧
      ∃ required, body.requiredStack signature returnsValue = .ok required ∧ required ≤ maxStack ∧
        IsGreatest {depth | ∃ front, front <+: beforeReturn calls ∧ (performAll front).depth = depth} required ∧
        ((accepted calls).count .ret = 1 → required = maxStack) := by
  have hall : runAll {} (accepted calls) = .ok (performAll calls) := runAll_acceptedFrom
  obtain ⟨front, hlast⟩ := exists_append_ret hall hfinish
  have hmem : .ret ∈ accepted calls := by simp [hlast]
  obtain ⟨after, hsplit, hnot⟩ := accepted_eq hmem
  obtain ⟨rfl, rfl⟩ := finish_ok hfinish
  have hrun := hall
  rw [hsplit, runAll_append] at hrun
  obtain ⟨asm, hbefore, hrest⟩ := hrun
  obtain ⟨returned, hret, hafter⟩ := bind_eq_ok.mp hrest
  obtain ⟨hemits, hone⟩ := ret_ok hret
  rw [show performAll (beforeReturn calls) = asm from foldl_perform hbefore] at hvalue
  have hdepth : asm.depth = returnsValue.toNat := by
    cases returnsValue with
    | false =>
      simp only [Bool.false_eq_true, false_iff, Nat.not_lt, Nat.le_zero] at hvalue
      exact hvalue
    | true => exact le_antisymm hone (hvalue.mp rfl)
  have hbody : body.instructions = (beforeReturn calls ++ .ret :: after).map (·.instruction) := by
    rw [hinstructions, instructions_of_runAll hall, hsplit]
    rfl
  refine ⟨⟨after, by rw [hsplit]; simp⟩, asm.maxDepth,
    requiredStack_of_runAll hbefore hnot hagree hdepth hbody hhandlers, maxDepth_mono hrest,
    isGreatest_maxDepth hbefore, fun hcount => ?_⟩
  -- the last call is a return, so it is the only one
  have hempty : after = [] := by
    rw [hlast, List.count_append, List.count_singleton_self] at hcount
    have hfront : .ret ∉ front := List.count_eq_zero.mp (by omega)
    have hsame := (List.append_cons_inj_of_notMem hfront List.not_mem_nil).mp (hlast.symm.trans hsplit)
    exact hsame.2.2.symm
  subst hempty
  cases hafter
  have hle := hemits.maxDepth
  rw [hemits.depth, depthAfter_self] at hle
  omega

/-- The first call is refused, the assembler is told other types than the analysis finds, and behind the
first return the stack grows deeper than in front of it. -/
def deadEnd : List Call :=
  let sig : MethodSig := { hasThis := true, returnType := .primitive .i4, params := [.primitive .string] }
  [.dup, .ldarg 0, .ldarg 1, .callvirt ⟨0x0A000001⟩ sig, .ret, .ldnull, .ldnull, .ldnull, .pop, .pop, .ret]

def objectSignature (_ : Token) : Result MethodSig :=
  .ok { hasThis := true, returnType := .primitive .object, params := [.primitive .object] }

def deadEndBody : Body where
  instructions := (performAll deadEnd).instructions.toList

theorem requiredStack_of_finish_deadEnd : (performAll deadEnd).finish = .ok (deadEndBody.instructions, 3) ∧
    ∃ required, deadEndBody.requiredStack objectSignature true = .ok required ∧ required ≤ 3 ∧
      IsGreatest {depth | ∃ front, front <+: beforeReturn deadEnd ∧ (performAll front).depth = depth} required := by
  have hfinish : (performAll deadEnd).finish = .ok (deadEndBody.instructions, 3) := rfl
  have hagree : ∀ call ∈ beforeReturn deadEnd, call.Agrees objectSignature := by
    rw [show beforeReturn deadEnd = [.ldarg 0, .ldarg 1, .callvirt ⟨0x0A000001⟩ _] from rfl]
    simp only [List.forall_mem_cons]
    exact ⟨trivial, trivial, ⟨_, rfl, rfl, rfl, rfl⟩, List.forall_mem_nil _⟩
  have hvalue : true = true ↔ 0 < (performAll (beforeReturn deadEnd)).depth := by decide
  have hhandlers : deadEndBody.handlers = [] := rfl
  obtain ⟨-, required, hr, hle, hgreatest, -⟩ := requiredStack_of_finish hfinish hagree hvalue rfl hhandlers
  exact ⟨hfinish, required, hr, hle, hgreatest⟩

end Agreement
end Code.Assembler
end HotPatch
