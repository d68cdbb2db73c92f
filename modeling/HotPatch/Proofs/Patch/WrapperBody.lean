import HotPatch.Patch.Wrapper
import HotPatch.Proofs.Body.AssembledDepth

/-!
# The body of a wrapper

The assembler is never refused while it makes the body of a wrapper: it loads as
many arguments as the call takes, and the call leaves one value at most. So the
body can be written out, and it declares the stack that the analysis finds.
-/

namespace HotPatch

open Code (Assembler)

/-- The argument that the instruction loads, if it loads one. -/
def Code.Instruction.loadedArgument? (instruction : Code.Instruction) : Option Nat :=
  match instruction.opcode, instruction.operand with
  | .ldarg0, .none => some 0
  | .ldarg1, .none => some 1
  | .ldarg2, .none => some 2
  | .ldarg3, .none => some 3
  | .ldargS, .variable index => some index.toNat
  | .ldarg, .variable index => some index.toNat
  | _, _ => none

theorem loadedArgument?_loadArgument (index : UInt16) :
    (Assembler.loadArgument index).loadedArgument? = some index.toNat := by
  unfold Assembler.loadArgument
  split_ifs with h0 h1 h2 h3
  · rw [h0]; rfl
  · rw [h1]; rfl
  · rw [h2]; rfl
  · rw [h3]; rfl
  · rfl
  · rfl

/-- The code loads the given number of arguments, each of them once and in their order, calls a method and
returns. -/
structure Body.PassesOn (body : Body) (count : Nat) (callee : Token) : Prop where
  code : ∃ loads : List Code.Instruction, body.instructions = loads ++ [.withToken .call callee, { opcode := .ret }] ∧
    loads.map (·.loadedArgument?) = (List.range count).map some
  handlers : body.handlers = []

namespace Wrapper

variable {callee : Token} {sig : MethodSig}

/-- The assembler after the calls that load the first arguments. -/
theorem loads_eq {count : Nat} (hcount : count < Code.depthRange) :
    (List.range count).foldlM (fun asm slot => asm.ldarg (.ofNat slot)) ({} : Assembler) =
      .ok ⟨((List.range count).map fun slot => Assembler.loadArgument (.ofNat slot)).toArray, count, count⟩ := by
  induction count with
  | zero => rfl
  | succ count ih =>
    have hdepth : Code.depthAfter count 0 1 = count + 1 := Code.depthAfter_of_lt hcount
    rw [List.range_succ, List.foldlM_append, ih (by omega)]
    refine bind_eq_ok.mpr ⟨_, rfl, ?_⟩
    simp [Assembler.ldarg, Assembler.emit, hdepth]

/-- The code up to the return, written out. -/
def passingCode (callee : Token) (sig : MethodSig) : List Code.Instruction :=
  ((List.range sig.argumentSlots).map fun slot => Assembler.loadArgument (.ofNat slot)) ++ [.withToken .call callee]

/-- The body that passes arguments on, written out. -/
def passingBody (callee : Token) (sig : MethodSig) : Body where
  instructions := passingCode callee sig ++ [{ opcode := .ret }]
  maxStack := .ofNat (max sig.argumentSlots (Assembler.results sig))

/-- The call takes all arguments that were loaded. -/
theorem call_eq (loads : Array Code.Instruction) :
    Assembler.call ⟨loads, sig.argumentSlots, sig.argumentSlots⟩ callee sig =
      .ok ⟨loads.push (.withToken .call callee), Assembler.results sig,
        max sig.argumentSlots (Assembler.results sig)⟩ := by
  have hresults := Assembler.results_le_one sig
  have hdepth : Code.depthAfter sig.argumentSlots sig.argumentSlots (Assembler.results sig) = Assembler.results sig := by
    rw [Code.depthAfter, Nat.sub_self, Nat.zero_add]
    exact Nat.mod_eq_of_lt (hresults.trans_lt (by decide))
  simp [Assembler.call, Assembler.emit, hdepth]

theorem body_eq (callee : Token) (sig : MethodSig) : Wrapper.body callee sig = .ok (passingBody callee sig) := by
  have hresults := Assembler.results_le_one sig
  have hret : ∀ (code : Array Code.Instruction) (maxDepth : Nat),
      Assembler.ret ⟨code, Assembler.results sig, maxDepth⟩ = .ok ⟨code.push { opcode := .ret }, 0, maxDepth⟩ := by
    intro code maxDepth
    simp [Assembler.ret, Assembler.emit, hresults]
  have hfinish : ∀ (code : Array Code.Instruction) (depth maxDepth : Nat),
      Assembler.finish ⟨code.push { opcode := .ret }, depth, maxDepth⟩ =
        .ok (code.toList ++ [{ opcode := .ret }], maxDepth) := by
    intro code depth maxDepth
    simp [Assembler.finish]
  refine bind_eq_ok.mpr ⟨_, loads_eq sig.argumentSlots_lt, bind_eq_ok.mpr ⟨_, call_eq _, bind_eq_ok.mpr ⟨_, hret _ _, ?_⟩⟩⟩
  refine bind_eq_ok.mpr ⟨_, hfinish _ _ _, congrArg Except.ok ?_⟩
  simp [passingBody, passingCode]

theorem passingBody_passesOn (callee : Token) (sig : MethodSig) :
    (passingBody callee sig).PassesOn sig.argumentSlots callee where
  code := by
    refine ⟨_, by rw [passingBody, passingCode, List.append_assoc, List.singleton_append], ?_⟩
    rw [List.map_map, List.map_inj_left]
    intro slot hslot
    have hsize : slot < 2 ^ 16 := (List.mem_range.mp hslot).trans sig.argumentSlots_lt
    rw [Function.comp_apply, loadedArgument?_loadArgument, UInt16.toNat_ofNat_of_lt' hsize]
  handlers := rfl

/-- The calls of the assembler in front of the return. -/
def passingCalls (callee : Token) (sig : MethodSig) : List Assembler.Call :=
  ((List.range sig.argumentSlots).map fun slot => .ldarg (.ofNat slot)) ++ [.call callee sig]

theorem instructions_passingBody (callee : Token) (sig : MethodSig) :
    (passingBody callee sig).instructions = (passingCalls callee sig ++ Assembler.Call.ret :: []).map (·.instruction) := by
  simp [passingBody, passingCode, passingCalls, Assembler.Call.instruction]

theorem passingCalls_agree {signature : Token → Result MethodSig} (hs : signature callee = .ok sig) :
    ∀ call ∈ passingCalls callee sig, call ≠ .ret ∧ call.Agrees signature := by
  intro call hc
  rw [passingCalls, List.mem_append, List.mem_map, List.mem_singleton] at hc
  rcases hc with ⟨slot, -, rfl⟩ | rfl
  · exact ⟨by simp, trivial⟩
  · exact ⟨by simp, sig, hs, rfl, rfl, rfl⟩

/-- The body declares exactly the stack that it needs. -/
theorem requiredStack_passingBody {signature : Token → Result MethodSig} (hs : signature callee = .ok sig) :
    (passingBody callee sig).requiredStack signature (!sig.returnType.isVoid) =
      .ok (passingBody callee sig).maxStack.toNat := by
  have hresults := Assembler.results_le_one sig
  have hslots := sig.argumentSlots_lt
  let loads := ((List.range sig.argumentSlots).map fun slot => Assembler.loadArgument (.ofNat slot)).toArray
  have hloads : Assembler.runAll {} ((List.range sig.argumentSlots).map fun slot => .ldarg (.ofNat slot)) =
      .ok ⟨loads, sig.argumentSlots, sig.argumentSlots⟩ := by
    rw [Assembler.runAll, List.foldlM_map]
    exact loads_eq hslots
  have hcall : Assembler.Call.run ⟨loads, sig.argumentSlots, sig.argumentSlots⟩ (.call callee sig) = _ := call_eq loads
  have hrun : Assembler.runAll {} (passingCalls callee sig) = _ := Assembler.runAll_concat.mpr ⟨_, hloads, hcall⟩
  have hagree := passingCalls_agree hs
  have hrequired : (passingBody callee sig).requiredStack signature (!sig.returnType.isVoid) = _ :=
    Assembler.requiredStack_of_runAll hrun (fun hm => (hagree _ hm).1 rfl) (fun call hc => (hagree call hc).2)
      (Assembler.results_eq sig) (instructions_passingBody callee sig) rfl
  have hsize : max sig.argumentSlots (Assembler.results sig) < 2 ^ 16 := by omega
  rw [hrequired, passingBody, UInt16.toNat_ofNat_of_lt' hsize]

end Wrapper
end HotPatch
