import HotPatch.Proofs.Image.ReturningSymbols
import HotPatch.Proofs.Image.SoundEdits
import HotPatch.Proofs.Patch.TableBody
import HotPatch.Proofs.Patch.WrapperBody

/-!
# Bodies that a run makes

The bodies of wrappers and of the lookup method are straight code, assembled with
the effects that the analysis finds, so they are sound. A body stays sound with a
return in front if its method returns nothing.
-/

namespace HotPatch

open Image
open Code (Assembler)

variable {signature : Token → Result MethodSig} {returnsValue : Bool} {token : Token} {sig : MethodSig}

/-- A body with a return in front. -/
theorem SoundBody.returning {body : Body} (h : SoundBody signature false body) :
    SoundBody signature false body.returning := by
  intro hsize
  have hl := lt_indexLimit hsize
  rw [Body.codeSize_returning] at hsize
  obtain ⟨⟨code, hcode⟩, depths, hc⟩ := h (by omega)
  exact ⟨⟨_, hcode.returning (by rwa [Body.codeSize_returning])⟩, _, hc.returning hl⟩

/-- Plain code comes from no document. -/
theorem known_of_plain {instructions : List Code.Instruction}
    (h : ∀ instruction ∈ instructions, instruction.Plain) (documents : Nat) :
    Known documents (instructions ++ [{ opcode := .ret }]) := by
  intro instruction hi point hp
  rw [List.mem_append, List.mem_singleton] at hi
  rcases hi with hi | rfl
  · rw [(h instruction hi).point] at hp
    cases hp
  · cases hp

/-- What the assembler makes of calls that agree with what is known of methods is sound, if it declares the
stack that it needs. -/
theorem soundBody_of_calls {calls : List Assembler.Call} {body : Body}
    (hcalls : ∀ call ∈ calls, call ≠ .ret ∧ call.Agrees signature)
    (hinstructions : body.instructions = (calls ++ Assembler.Call.ret :: []).map (·.instruction))
    (hhandlers : body.handlers = [])
    (hrequired : body.requiredStack signature returnsValue = .ok body.maxStack.toNat) :
    SoundBody signature returnsValue body ∧ ∀ documents, Known documents body.instructions := by
  have hbody : body.instructions = calls.map (·.instruction) ++ [{ opcode := .ret }] := by
    rw [hinstructions, List.map_append]
    rfl
  have hplain : ∀ instruction ∈ calls.map (·.instruction), instruction.Plain := by
    intro instruction hi
    obtain ⟨call, hm, rfl⟩ := List.mem_map.mp hi
    obtain ⟨hne, hagrees⟩ := hcalls call hm
    have hacts : call.instruction.Acts signature returnsValue _ _ := Assembler.Call.acts hne hagrees
    exact hacts.toPlain
  obtain ⟨-, hcertificate⟩ := Code.certificate_of_requiredStack hrequired
  refine ⟨fun hsize => ⟨Body.fits_of_plain hbody hhandlers hplain hsize, hcertificate⟩, ?_⟩
  rw [hbody]
  exact known_of_plain hplain

/-- The body of a wrapper calls its method with all arguments and returns what it returns. -/
theorem Wrapper.soundBody {body : Body} (hs : signature token = .ok sig)
    (h : Wrapper.body token sig = .ok body) :
    SoundBody signature (!sig.returnType.isVoid) body ∧ ∀ documents, Known documents body.instructions := by
  rw [body_eq, Except.ok.injEq] at h
  subst h
  exact soundBody_of_calls (passingCalls_agree hs) (instructions_passingBody token sig) rfl (requiredStack_passingBody hs)

/-- The body of the lookup method leaves the dictionary. -/
theorem LookupTable.soundBody {constructor add : Token} {entries : List LookupEntry} {body : Body}
    (hc : signature constructor = .ok SupportType.constructorSig) (ha : signature add = .ok addSig)
    (h : LookupTable.body constructor add entries = .ok body) :
    SoundBody signature true body ∧ ∀ documents, Known documents body.instructions := by
  rw [body_eq, Except.ok.injEq] at h
  subst h
  exact soundBody_of_calls (tableCalls_agree hc ha) (tableCode_eq constructor add entries) rfl
    (requiredStack_tableBody hc ha)

end HotPatch
