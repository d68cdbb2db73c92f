import HotPatch.Proofs.Body.Clauses
import HotPatch.Proofs.Code.Disassembly

/-!
# Reading protected regions

The regions of a body follow its code in a section that starts at a multiple of
four and says how long it is. The offsets in a clause are those of instructions
or the end of the code, so whoever reads the code can tell which instructions a
region protects.
-/

namespace HotPatch

open Code

variable {body : Body} {handler : Handler} {code : EncodedCode} {clause : Clause} {instructions : List Instruction}
  {index : Nat}

/-- The region as it is stored: a filter stands in place of the class, and a null class is the same as none. -/
def Handler.stored (handler : Handler) : Handler :=
  if handler.flags.contains .filterBlock then { handler with classToken := none }
  else { handler with classToken := handler.classToken.filter (!·.isNull), filterStart := none }

section Reader

/-- The index with an offset. -/
def indexOf (boundaries : List Nat) (offset : Nat) : Result Nat :=
  match boundaries.idxOf? offset with
  | some index => .ok index
  | none => .error .outOfBounds

/-- The region of a clause in code with these boundaries. -/
def Clause.region (boundaries : List Nat) (clause : Clause) : Result Handler := do
  let tryStart ← indexOf boundaries clause.tryOffset
  let tryEnd ← indexOf boundaries (clause.tryOffset + clause.tryLength)
  let handlerStart ← indexOf boundaries clause.handlerOffset
  let handlerEnd ← indexOf boundaries (clause.handlerOffset + clause.handlerLength)
  if clause.flags.contains .filterBlock then
    let filterStart ← indexOf boundaries clause.classOrFilter
    return ⟨clause.flags, tryStart, tryEnd, handlerStart, handlerEnd, none, some filterStart⟩
  else
    let token : Token := ⟨UInt32.ofNat clause.classOrFilter⟩
    return ⟨clause.flags, tryStart, tryEnd, handlerStart, handlerEnd, (some token).filter (!·.isNull), none⟩

/-- The offsets of all instructions in the code, and its end. -/
def codeBoundaries (code : Bytes) : Result (List Nat) :=
  return (← readCode code).map (·.offset) ++ [code.length]

/-- The regions of clauses that follow the code. -/
def regionsOf (code : Bytes) (clauses : List Clause) : Result (List Handler) := do
  let boundaries ← codeBoundaries code
  clauses.mapM (·.region boundaries)

/-- The clause in front. Only 16 bits of its flags have a meaning. -/
def readClause : Reader Clause := do
  let flags ← Reader.number 4
  let tryOffset ← Reader.number 4
  let tryLength ← Reader.number 4
  let handlerOffset ← Reader.number 4
  let handlerLength ← Reader.number 4
  let classOrFilter ← Reader.number 4
  if flags < 0x10000 then
    return ⟨⟨UInt16.ofNat flags⟩, tryOffset, tryLength, handlerOffset, handlerLength, classOrFilter⟩
  else throw .outOfBounds

/-- A section of regions: where it starts in the body, the size that it announces, and its regions. -/
structure StoredRegions where
  start : Nat
  size : Nat
  handlers : List Handler
  deriving DecidableEq, Repr

/-- Reads the section behind the code, which ends at the position. -/
def readRegions (position : Nat) (code : Bytes) : Reader StoredRegions := do
  let start := Bytes.alignFour position
  let _ ← Reader.bytes (start - position)
  let kind ← Reader.number 1
  let size ← Reader.number 3
  if kind = 0x41 then
    let clauses ← Reader.times ((size - 4) / 24) readClause
    let handlers ← regionsOf code clauses
    return ⟨start, size, handlers⟩
  else throw .outOfBounds

end Reader

theorem codeBoundaries_encode (h : Code.encode instructions = .ok code) :
    codeBoundaries code.bytes = .ok (boundaries instructions) := by
  apply bind_eq_ok.mpr
  refine ⟨_, readCode_encode h, ?_⟩
  have hsize : code.bytes.length = codeSize instructions := (Code.encode_ok h).2.1
  rw [map_offset_mapIdx, hsize]
  rfl

theorem indexOf_boundaries (hindex : index ≤ instructions.length) :
    indexOf (boundaries instructions) (offsetAt instructions index) = .ok index := by
  rw [indexOf, idxOf?_boundaries hindex]

/-- The numbers of the clause fit their four bytes. -/
structure Clause.Bounded (clause : Clause) : Prop where
  tryOffset : clause.tryOffset < codeLimit
  tryLength : clause.tryLength < codeLimit
  handlerOffset : clause.handlerOffset < codeLimit
  handlerLength : clause.handlerLength < codeLimit
  classOrFilter : clause.classOrFilter < codeLimit

theorem Clause.Bounded.reads (h : clause.Bounded) : Reads readClause clause.bytes clause := by
  have hflags := clause.flags.bits.toNat_lt
  apply (Reads.number (hflags.trans (by decide))).bind
  apply (Reads.number h.tryOffset).bind
  apply (Reads.number h.tryLength).bind
  apply (Reads.number h.handlerOffset).bind
  apply (Reads.number h.handlerLength).bind
  apply (Reads.number h.classOrFilter).bind
  rw [if_pos hflags, UInt16.ofNat_toNat]
  exact Reads.pure clause

section Placed

variable (hr : handler.Ranged instructions.length) (hf : handler.Filtered instructions.length)

include hr hf

/-- The clause of a region gives the region back. -/
theorem Handler.region_placed : (handler.placed instructions).region (boundaries instructions) = .ok handler.stored := by
  have htried := offsetAt_lt_offsetAt hr.tried hr.tryEnd
  have hhandled := offsetAt_lt_offsetAt hr.handled hr.handlerEnd
  have htry := indexOf_boundaries (hr.tried.le.trans hr.tryEnd)
  have htryEnd := indexOf_boundaries hr.tryEnd
  have hhandler := indexOf_boundaries (hr.handled.le.trans hr.handlerEnd)
  have hhandlerEnd := indexOf_boundaries hr.handlerEnd
  -- an end is written as a length, and its offset is found again by adding up
  rw [← Nat.add_sub_of_le htried.le] at htryEnd
  rw [← Nat.add_sub_of_le hhandled.le] at hhandlerEnd
  unfold Clause.region placed stored
  by_cases hflag : handler.flags.contains .filterBlock
  · obtain ⟨start, hstart, hle⟩ := hf hflag
    simp only [hflag, if_true, hstart, Option.getD_some, htry, htryEnd, hhandler, hhandlerEnd, indexOf_boundaries hle]
    rfl
  · simp only [hflag, Bool.false_eq_true, if_false, htry, htryEnd, hhandler, hhandlerEnd]
    rcases handler.classToken with - | token
    · rfl
    · rw [Option.map_some, Option.getD_some, UInt32.ofNat_toNat]
      rfl

theorem Handler.bounded_placed (hsize : codeSize instructions < codeLimit) :
    (handler.placed instructions).Bounded := by
  have htryEnd := offsetAt_le_codeSize hr.tryEnd
  have hhandlerEnd := offsetAt_le_codeSize hr.handlerEnd
  have htried := offsetAt_lt_offsetAt hr.tried hr.tryEnd
  have hhandled := offsetAt_lt_offsetAt hr.handled hr.handlerEnd
  constructor
  case classOrFilter =>
    unfold placed
    dsimp only
    split_ifs with hflag
    · obtain ⟨start, hstart, hle⟩ := hf hflag
      rw [hstart, Option.getD_some]
      exact (offsetAt_le_codeSize hle).trans_lt hsize
    · rcases handler.classToken with - | token
      · decide
      · exact token.value.toNat_lt
  all_goals
    unfold placed
    dsimp only
    omega

end Placed

namespace Body.Fits

variable (h : body.Fits code)

include h

theorem regionsOf_placed :
    regionsOf code.bytes (body.handlers.map (·.placed body.instructions)) = .ok (body.handlers.map (·.stored)) := by
  apply bind_eq_ok.mpr
  refine ⟨_, codeBoundaries_encode h.encodes, ?_⟩
  rw [mapM_eq_ok, List.forall₂_map_left_iff, List.forall₂_map_right_iff, List.forall₂_same]
  intro handler hm
  exact Handler.region_placed (h.ranged hm) (h.filtered handler hm)

/-- The section of regions is read behind any position, with what fills up the bytes before it. -/
theorem reads_regions (position : Nat) : Reads (readRegions position code.bytes)
    (List.replicate (Bytes.alignFour position - position) 0 ++ (handlerSectionKind ::
      Bytes.littleEndian 3 (4 + body.handlers.length * 24) ++
        (body.handlers.map (·.placed body.instructions)).flatMap Clause.bytes))
    ⟨Bytes.alignFour position, 4 + body.handlers.length * 24, body.handlers.map (·.stored)⟩ := by
  have hkind : Reads (Reader.number 1) [handlerSectionKind] 0x41 := Reads.number (by decide)
  have hcount : (4 + body.handlers.length * 24 - 4) / 24 =
      (body.handlers.map (·.placed body.instructions)).length := by
    rw [List.length_map]
    omega
  have hclauses : ∀ clause ∈ body.handlers.map (·.placed body.instructions), Reads readClause clause.bytes clause := by
    intro clause hclause
    obtain ⟨handler, hm, rfl⟩ := List.mem_map.mp hclause
    exact (Handler.bounded_placed (h.ranged hm) (h.filtered handler hm) h.codeSize_lt).reads
  apply (Reads.bytes_of_length List.length_replicate).bind
  apply hkind.bind
  apply (Reads.number h.count).bind
  rw [if_pos rfl, hcount]
  apply (Reads.times_map hclauses).map
  apply (Reads.lift h.regionsOf_placed).map
  exact Reads.pure _

end Body.Fits
end HotPatch
