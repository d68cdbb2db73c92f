import HotPatch.Proofs.Body.Encoding
import HotPatch.Proofs.Code.Boundaries

/-!
# Clauses

A protected region is written as a clause of six numbers, of which the bounds
are offsets and lengths in the code. An encoded body is its header, its code
and the clauses of its regions.
-/

namespace HotPatch

open Code

/-- The fields of a region in the section behind the code. -/
structure Clause where
  flags : HandlerFlags
  tryOffset : Nat
  tryLength : Nat
  handlerOffset : Nat
  handlerLength : Nat
  classOrFilter : Nat
  deriving DecidableEq, Repr

def Clause.bytes (clause : Clause) : Bytes :=
  [clause.flags.bits.toNat, clause.tryOffset, clause.tryLength, clause.handlerOffset, clause.handlerLength,
    clause.classOrFilter].flatMap (Bytes.littleEndian 4)

/-- The clause of a region, given the encoded code. -/
def Handler.clause (code : EncodedCode) (handler : Handler) : Result Clause := do
  let tryStart ← handlerOffset code handler.tryStart
  let tryEnd ← handlerOffset code handler.tryEnd
  let handlerStart ← handlerOffset code handler.handlerStart
  let handlerEnd ← handlerOffset code handler.handlerEnd
  let last ← handler.classOrFilter code
  return ⟨handler.flags, tryStart, tryEnd - tryStart, handlerStart, handlerEnd - handlerStart, last⟩

/-- The clause of a region whose bounds are instructions or the end of the code. -/
def Handler.placed (instructions : List Instruction) (handler : Handler) : Clause where
  flags := handler.flags
  tryOffset := offsetAt instructions handler.tryStart
  tryLength := offsetAt instructions handler.tryEnd - offsetAt instructions handler.tryStart
  handlerOffset := offsetAt instructions handler.handlerStart
  handlerLength := offsetAt instructions handler.handlerEnd - offsetAt instructions handler.handlerStart
  classOrFilter :=
    if handler.flags.contains .filterBlock then offsetAt instructions (handler.filterStart.getD 0)
    else (handler.classToken.map (·.value.toNat)).getD 0

variable {handler : Handler} {code : EncodedCode} {body : Body} {instructions : List Instruction} {index : Nat}

/-- A region is written as its clause. -/
theorem Handler.encode_eq (code : EncodedCode) (handler : Handler) :
    handler.encode code = (handler.clause code).map Clause.bytes := by
  unfold encode clause
  rcases handlerOffset code handler.tryStart with error | tryStart
  · rfl
  rcases handlerOffset code handler.tryEnd with error | tryEnd
  · rfl
  rcases handlerOffset code handler.handlerStart with error | handlerStart
  · rfl
  rcases handlerOffset code handler.handlerEnd with error | handlerEnd
  · rfl
  rcases handler.classOrFilter code with error | last
  · rfl
  · rfl

theorem handlerOffset_eq (h : Code.encode instructions = .ok code) (hsize : code.size < codeLimit)
    (hindex : index ≤ instructions.length) : handlerOffset code index = .ok (offsetAt instructions index) := by
  rw [handlerOffset, EncodedCode.offsetOf?_eq h hsize hindex]

/-- A region inside the code is written with the offsets of its bounds. -/
theorem Handler.clause_eq (hr : handler.Ranged instructions.length) (hf : handler.Filtered instructions.length)
    (h : Code.encode instructions = .ok code) (hsize : code.size < codeLimit) :
    handler.clause code = .ok (handler.placed instructions) := by
  have hlast : handler.classOrFilter code = .ok (handler.placed instructions).classOrFilter := by
    unfold classOrFilter placed
    by_cases hflag : handler.flags.contains .filterBlock
    · obtain ⟨start, hstart, hle⟩ := hf hflag
      simp only [hflag, if_true, hstart, Option.getD_some]
      exact handlerOffset_eq h hsize hle
    · simp only [hflag, Bool.false_eq_true, if_false]
  rw [clause, handlerOffset_eq h hsize (hr.tried.le.trans hr.tryEnd), handlerOffset_eq h hsize hr.tryEnd,
    handlerOffset_eq h hsize (hr.handled.le.trans hr.handlerEnd), handlerOffset_eq h hsize hr.handlerEnd, hlast]
  rfl

namespace Body

/-- The clauses of all regions. -/
def clauses (body : Body) (code : EncodedCode) : Result (List Clause) := body.handlers.mapM (·.clause code)

/-- Header, code and clauses. -/
def assemble (body : Body) (code : EncodedCode) (clauses : List Clause) : Bytes :=
  if body.isTiny code.size then UInt8.ofNat (code.size * 4 + 2) :: code.bytes
  else if body.handlers.isEmpty then body.header code.size ++ code.bytes
  else Bytes.padToFour 0 (body.header code.size ++ code.bytes) ++
    (handlerSectionKind :: Bytes.littleEndian 3 (4 + clauses.length * 24) ++ clauses.flatMap Clause.bytes)

theorem mapM_encode_eq_ok {handlers : List Handler} {encoded : List Bytes} :
    handlers.mapM (·.encode code) = .ok encoded ↔
      ∃ clauses, handlers.mapM (·.clause code) = .ok clauses ∧ encoded = clauses.map Clause.bytes := by
  simp only [mapM_eq_ok, Handler.encode_eq, map_eq_ok]
  induction handlers generalizing encoded with
  | nil => simp
  | cons handler handlers ih =>
    simp only [List.forall₂_cons_left_iff, ih]
    constructor
    · rintro ⟨_, _, ⟨clause, hc, rfl⟩, ⟨clauses, hcs, rfl⟩, rfl⟩
      exact ⟨clause :: clauses, ⟨clause, clauses, hc, hcs, rfl⟩, rfl⟩
    · rintro ⟨_, ⟨clause, clauses, hc, hcs, rfl⟩, rfl⟩
      exact ⟨_, _, ⟨clause, hc, rfl⟩, ⟨clauses, hcs, rfl⟩, rfl⟩

/-- An encoded body consists of its header, its code and its clauses. -/
theorem encode_parts {encoded : EncodedBody} (h : body.encode = .ok encoded) :
    ∃ clauses, body.clauses encoded.code = .ok clauses ∧ encoded.bytes = body.assemble encoded.code clauses := by
  obtain ⟨⟨⟩, -, h⟩ := bind_eq_ok.mp h
  obtain ⟨code, -, h⟩ := bind_eq_ok.mp h
  unfold assemble clauses
  split_ifs at h with hsmall hsize hempty
  · cases h
    obtain ⟨-, -, -, hnone, -⟩ := isTiny_iff.mp hsmall
    refine ⟨[], by rw [hnone]; rfl, ?_⟩
    rw [if_pos hsmall]
  · cases h
    refine ⟨[], by rw [List.isEmpty_iff.mp hempty]; rfl, ?_⟩
    rw [if_neg hsmall, if_pos hempty]
  · obtain ⟨bytes, hb, h⟩ := bind_eq_ok.mp h
    cases h
    unfold encodeHandlers at hb
    dsimp only at hb
    split_ifs at hb
    · obtain ⟨encoded, he, hb⟩ := bind_eq_ok.mp hb
      cases hb
      obtain ⟨clauses, hc, rfl⟩ := mapM_encode_eq_ok.mp he
      have hlength := (mapM_eq_ok.mp hc).length_eq
      refine ⟨clauses, hc, ?_⟩
      rw [if_neg hsmall, if_neg hempty, ← hlength, List.flatMap_def]
    · cases hb
  · cases h

namespace Fits

variable (h : body.Fits code)

include h

theorem ranged (hm : handler ∈ body.handlers) : handler.Ranged body.instructions.length :=
  (checkTargets_eq_ok.mp h.targets).2 handler hm

theorem codeSize_lt : codeSize body.instructions < codeLimit := by
  rw [← (Code.encode_ok h.encodes).2.1]
  exact h.size

theorem clauses_eq : body.clauses code = .ok (body.handlers.map (·.placed body.instructions)) := by
  rw [clauses, mapM_eq_ok, List.forall₂_map_right_iff, List.forall₂_same]
  intro handler hm
  exact Handler.clause_eq (h.ranged hm) (h.filtered handler hm) h.encodes h.size

end Fits
end Body
end HotPatch
