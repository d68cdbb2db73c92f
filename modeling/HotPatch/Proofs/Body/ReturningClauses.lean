import HotPatch.Proofs.Body.Clauses
import HotPatch.Proofs.Body.LeadingReturn

/-!
# Encoded regions behind a return

With a return in front the code gets one byte in front, and the offsets in the
clauses of its regions grow by one.
-/

namespace HotPatch

open Code

variable {handler : Handler} {code : EncodedCode} {body : Body}

/-- The clause for code that stands one byte further behind. -/
def Clause.moved (clause : Clause) : Clause :=
  { clause with
    tryOffset := clause.tryOffset + 1
    handlerOffset := clause.handlerOffset + 1
    classOrFilter :=
      if clause.flags.contains .filterBlock then clause.classOrFilter + 1 else clause.classOrFilter }

theorem offsetAt_map_shift (position : Nat) (instructions : List Instruction) (index : Nat) :
    offsetAt (instructions.map (·.shift position)) index = offsetAt instructions index := by
  rw [offsetAt, ← List.map_take, codeSize_shift, offsetAt]

/-- An instruction stands one byte further behind the return. -/
theorem offsetAt_returning (body : Body) (index : Nat) :
    offsetAt body.returning.instructions (index + 1) = offsetAt body.instructions index + 1 := by
  rw [Body.returning, offsetAt_cons, offsetAt_map_shift, Nat.add_comm]
  rfl

/-- Flags, lengths and the class stay; the offsets grow by one. -/
theorem Handler.placed_returning (hr : handler.Ranged body.instructions.length)
    (hf : handler.Filtered body.instructions.length) (hl : body.instructions.length + 1 < indexLimit) :
    (handler.shift 0).placed body.returning.instructions = (handler.placed body.instructions).moved := by
  obtain ⟨htried, htryEnd, hhandled, hhandlerEnd⟩ := hr
  have htry : shiftStart 0 handler.tryStart = handler.tryStart + 1 := shiftStart_zero (by omega)
  have htryEnd : shiftEnd 0 handler.tryEnd = handler.tryEnd + 1 := shiftEnd_zero (by omega) (by omega)
  have hhandler : shiftStart 0 handler.handlerStart = handler.handlerStart + 1 := shiftStart_zero (by omega)
  have hhandlerEnd : shiftEnd 0 handler.handlerEnd = handler.handlerEnd + 1 := shiftEnd_zero (by omega) (by omega)
  simp only [placed, Clause.moved, Handler.shift, htry, htryEnd, hhandler, hhandlerEnd, offsetAt_returning,
    Nat.add_sub_add_right]
  by_cases hflag : handler.flags.contains .filterBlock
  · obtain ⟨start, hstart, hle⟩ := hf hflag
    have hfilter : shiftStart 0 start = start + 1 := shiftStart_zero (by omega)
    simp only [hflag, if_true, hstart, Option.map_some, Option.getD_some, hfilter, offsetAt_returning]
  · simp only [hflag, Bool.false_eq_true, if_false]

/-- With a return in front, all clauses move. -/
theorem Body.clauses_returning (h : body.Fits code) (hsize : code.size + 1 < codeLimit) {clauses : List Clause}
    (hc : body.clauses code = .ok clauses) :
    body.returning.clauses code.behindReturn = .ok (clauses.map Clause.moved) := by
  have hsize' : codeSize body.returning.instructions < codeLimit := by
    rw [codeSize_returning, ← (Code.encode_ok h.encodes).2.1]
    exact hsize
  obtain rfl := Except.ok.inj (h.clauses_eq.symm.trans hc)
  rw [(h.returning hsize').clauses_eq, List.map_map, returning, List.map_map, Except.ok.injEq]
  apply List.map_congr_left
  intro handler hm
  exact Handler.placed_returning (h.ranged hm) (h.filtered handler hm) (lt_indexLimit hsize')

end HotPatch
