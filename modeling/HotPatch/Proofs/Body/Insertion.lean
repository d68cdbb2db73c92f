import HotPatch.Proofs.Body.Encoding

/-!
# Inserting an instruction

An insertion moves what stands at its index or behind it by one place. References
to instructions follow the instructions that they name: a branch leads to the
same instruction as before, a filter starts with it, and the regions hold the
same instructions. The new instruction belongs to the regions that were open at
its place.
-/

namespace HotPatch

open Code

variable {index position : Nat} {instruction : Instruction} {handler : Handler} {body next : Body}

/-- Where an instruction stands after an insertion at an index. -/
def placeAfter (index position : Nat) : Nat := if position < index then position else position + 1

theorem placeAfter_le (index position : Nat) : placeAfter index position ≤ position + 1 := by
  unfold placeAfter
  split_ifs <;> omega

theorem shiftStart_eq (h : position + 1 < indexLimit) : shiftStart index position = placeAfter index position := by
  unfold shiftStart placeAfter
  by_cases hi : index ≤ position
  · rw [if_pos hi, if_neg (by omega), Nat.mod_eq_of_lt h]
  · rw [if_neg hi, if_pos (by omega)]

theorem shiftEnd_eq (h : position + 1 < indexLimit) :
    shiftEnd index position = if index < position then position + 1 else position := by
  unfold shiftEnd
  rw [Nat.mod_eq_of_lt h]

namespace Code.Instruction

theorem shift_of_target (index : Nat) {target : Nat} (h : instruction.operand = .target target) :
    instruction.shift index = { instruction with operand := .target (shiftStart index target) } := by
  rw [shift, h]

/-- Only branches refer to other instructions. -/
theorem shift_of_no_target (index : Nat) (h : instruction.target? = none) :
    instruction.shift index = instruction := by
  unfold shift
  split
  · rename_i target ht
    rw [target?, ht] at h
    cases h
  · rfl

theorem target?_eq_some {target : Nat} :
    instruction.target? = some target ↔ instruction.operand = .target target := by
  unfold target?
  split <;> simp_all

@[simp] theorem shift_opcode (index : Nat) (instruction : Instruction) :
    (instruction.shift index).opcode = instruction.opcode := by
  unfold shift
  split <;> rfl

@[simp] theorem shift_point (index : Nat) (instruction : Instruction) :
    (instruction.shift index).point = instruction.point := by
  unfold shift
  split <;> rfl

@[simp] theorem shift_info (index : Nat) (instruction : Instruction) :
    (instruction.shift index).info = instruction.info := by
  rw [info, shift_opcode, info]

@[simp] theorem shift_size (index : Nat) (instruction : Instruction) :
    (instruction.shift index).size = instruction.size := by
  rw [size, shift_opcode, size]

@[simp] theorem shift_token? (index : Nat) (instruction : Instruction) :
    (instruction.shift index).token? = instruction.token? := by
  rcases ht : instruction.target? with - | target
  · rw [shift_of_no_target index ht]
  · rw [target?_eq_some] at ht
    rw [shift_of_target index ht, token?, token?, ht]

@[simp] theorem shift_target? (index : Nat) (instruction : Instruction) :
    (instruction.shift index).target? = instruction.target?.map (shiftStart index) := by
  rcases ht : instruction.target? with - | target
  · rw [shift_of_no_target index ht, ht, Option.map_none]
  · rw [target?_eq_some] at ht
    rw [shift_of_target index ht]
    rfl

/-- The instruction with its target, if it has one, replaced. -/
def retarget (move : Nat → Nat) (instruction : Instruction) : Instruction :=
  match instruction.operand with
  | .target target => { instruction with operand := .target (move target) }
  | _ => instruction

theorem shift_eq_retarget (h : ∀ target, instruction.target? = some target → target + 1 < indexLimit) :
    instruction.shift index = instruction.retarget (placeAfter index) := by
  unfold shift retarget
  cases ho : instruction.operand with
  | target target =>
    have hlt := h target (target?_eq_some.mpr ho)
    simp only [shiftStart_eq hlt]
  | _ => rfl

end Code.Instruction

theorem codeSize_shift (index : Nat) (instructions : List Instruction) :
    codeSize (instructions.map (·.shift index)) = codeSize instructions := by
  simp [codeSize, Function.comp_def]

/-- The bounds of a region before and after an insertion: an instruction that was there before is inside
exactly if it was, and the new one is inside if the region was open at its place. -/
structure RegionKept (index start stop start' stop' : Nat) : Prop where
  old : ∀ position, placeAfter index position ∈ Set.Ico start' stop' ↔ position ∈ Set.Ico start stop
  new : index ∈ Set.Ico start' stop' ↔ start < index ∧ index < stop
  empty : stop ≤ start → stop' ≤ start'

theorem regionKept_shift {start stop : Nat} (hstart : start + 1 < indexLimit) (hstop : stop + 1 < indexLimit) :
    RegionKept index start stop (shiftStart index start) (shiftEnd index stop) := by
  rw [shiftStart_eq hstart, shiftEnd_eq hstop]
  unfold placeAfter
  constructor
  case old =>
    intro position
    simp only [placeAfter, Set.mem_Ico]
    split_ifs <;> omega
  case new =>
    simp only [Set.mem_Ico]
    split_ifs <;> omega
  case empty =>
    intro hempty
    split_ifs <;> omega

/-- A region before and after an insertion. -/
structure Handler.Kept (index : Nat) (old new : Handler) : Prop where
  flags : new.flags = old.flags
  classToken : new.classToken = old.classToken
  filter : new.filterStart = old.filterStart.map (placeAfter index)
  tried : RegionKept index old.tryStart old.tryEnd new.tryStart new.tryEnd
  handled : RegionKept index old.handlerStart old.handlerEnd new.handlerStart new.handlerEnd

theorem Handler.kept_shift (hb : ∀ bound ∈ handler.bounds, bound + 1 < indexLimit)
    (hf : ∀ start, handler.filterStart = some start → start + 1 < indexLimit) :
    handler.Kept index (handler.shift index) := by
  simp only [bounds, List.forall_mem_cons] at hb
  obtain ⟨htry, htryEnd, hhandler, hhandlerEnd, -⟩ := hb
  constructor
  case flags => rfl
  case classToken => rfl
  case filter =>
    apply Option.map_congr
    intro start hs
    exact shiftStart_eq (hf start hs)
  case tried => exact regionKept_shift htry htryEnd
  case handled => exact regionKept_shift hhandler hhandlerEnd

theorem Handler.Ranged.shift {length : Nat} (h : handler.Ranged length)
    (hb : ∀ bound ∈ handler.bounds, bound + 1 < indexLimit) : (handler.shift index).Ranged (length + 1) := by
  simp only [bounds, List.forall_mem_cons] at hb
  obtain ⟨htry, htryEnd, hhandler, hhandlerEnd, -⟩ := hb
  obtain ⟨htried, htryLe, hhandled, hhandlerLe⟩ := h
  unfold Handler.shift
  rw [shiftStart_eq htry, shiftEnd_eq htryEnd, shiftStart_eq hhandler, shiftEnd_eq hhandlerEnd]
  unfold placeAfter
  constructor <;> dsimp only <;> split_ifs <;> omega

namespace Body

/-- Every index in the body is less than the greatest number of 64 bits, so none wraps. -/
structure Addressable (body : Body) : Prop where
  targets : ∀ instruction ∈ body.instructions, ∀ target, instruction.target? = some target →
    target + 1 < indexLimit
  bounds : ∀ handler ∈ body.handlers, ∀ bound ∈ handler.bounds, bound + 1 < indexLimit
  filters : ∀ handler ∈ body.handlers, ∀ start, handler.filterStart = some start → start + 1 < indexLimit

/-- The body after an insertion: each instruction is still there, and each reference names the
instruction that it named before. -/
structure Inserted (body : Body) (index : Nat) (instruction : Instruction) (inserted : Body) : Prop where
  length : inserted.instructions.length = body.instructions.length + 1
  placed : inserted.instructions[index]? = some instruction
  moved : ∀ position old, body.instructions[position]? = some old →
    inserted.instructions[placeAfter index position]? = some (old.retarget (placeAfter index))
  handlers : List.Forall₂ (Handler.Kept index) body.handlers inserted.handlers
  header : inserted.maxStack = body.maxStack ∧ inserted.initLocals = body.initLocals ∧
    inserted.locals = body.locals

/-- The instructions and regions of a body after an insertion that succeeds. -/
theorem insert_eq_ok (h : body.insert index instruction = .ok next) :
    index ≤ body.instructions.length ∧
      next = { body with
        instructions := (body.instructions.map (·.shift index)).insertIdx index instruction
        handlers := body.handlers.map (·.shift index) } := by
  unfold insert at h
  split_ifs at h with hle
  cases h
  exact ⟨hle, rfl⟩

theorem insert_of_le (h : index ≤ body.instructions.length) (instruction : Instruction) :
    ∃ inserted, body.insert index instruction = .ok inserted := ⟨_, if_pos h⟩

theorem insert_of_lt (h : body.instructions.length < index) (instruction : Instruction) :
    body.insert index instruction = .error (.undefinedTarget index body.instructions.length) :=
  if_neg (by omega)

theorem Addressable.inserted (ha : body.Addressable) (h : body.insert index instruction = .ok next) :
    body.Inserted index instruction next := by
  obtain ⟨hle, rfl⟩ := insert_eq_ok h
  constructor
  case length => simp [List.length_insertIdx, hle]
  case placed => simp [List.getElem?_insertIdx_self, hle]
  case moved =>
    intro position old ho
    have hshift : old.shift index = old.retarget (placeAfter index) :=
      old.shift_eq_retarget (ha.targets old (List.mem_of_getElem? ho))
    dsimp only
    rw [List.getElem?_insertIdx, placeAfter]
    by_cases hp : position < index
    · simp [hp, ho, hshift]
    · simp only [if_neg hp]
      rw [if_neg (by omega), if_neg (by omega)]
      simp [ho, hshift]
  case handlers =>
    rw [List.forall₂_map_right_iff, List.forall₂_same]
    exact fun handler hh => Handler.kept_shift (ha.bounds handler hh) (ha.filters handler hh)
  case header => exact ⟨rfl, rfl, rfl⟩

/-- Targets stay in order if the new instruction does not branch out of the body. -/
theorem checkTargets_insert (h : body.insert index instruction = .ok next) (ht : body.checkTargets = .ok ())
    (htargets : ∀ old ∈ body.instructions, ∀ target, old.target? = some target → target + 1 < indexLimit)
    (hbounds : ∀ handler ∈ body.handlers, ∀ bound ∈ handler.bounds, bound + 1 < indexLimit)
    (hnew : ∀ target, instruction.target? = some target → target < next.instructions.length) :
    next.checkTargets = .ok () := by
  obtain ⟨hinside, hranged⟩ := checkTargets_eq_ok.mp ht
  obtain ⟨hle, rfl⟩ := insert_eq_ok h
  have hlength : ((body.instructions.map (·.shift index)).insertIdx index instruction).length =
      body.instructions.length + 1 := by simp [List.length_insertIdx, hle]
  rw [checkTargets_eq_ok]
  dsimp only at hnew ⊢
  constructor
  · intro other ho target hot
    rcases (List.mem_insertIdx (by simpa using hle)).mp ho with rfl | ho
    · exact hnew target hot
    · obtain ⟨old, hold, rfl⟩ := List.mem_map.mp ho
      rw [Instruction.shift_target?, Option.map_eq_some_iff] at hot
      obtain ⟨position, hp, rfl⟩ := hot
      have hlt := hinside old hold position hp
      have hplace := placeAfter_le index position
      rw [shiftStart_eq (htargets old hold position hp), hlength]
      omega
  · intro handler hh
    obtain ⟨old, hold, rfl⟩ := List.mem_map.mp hh
    rw [hlength]
    exact (hranged old hold).shift (hbounds old hold)

/-- The insertion as a change in place, step by step: a change that fails leaves the body as it is at
that point. -/
def insertInPlace (index : Nat) (instruction : Instruction) : ExceptT Error (StateM Body) Unit := do
  let length := (← get).instructions.length
  if length < index then throw (.undefinedTarget index length)
  modify fun body => { body with instructions := body.instructions.map (·.shift index) }
  modify fun body => { body with handlers := body.handlers.map (·.shift index) }
  modify fun body => { body with instructions := body.instructions.insertIdx index instruction }

/-- In place, the body becomes the answer of the insertion, and stays what it is if there is none. -/
theorem insertInPlace_eq (body : Body) (index : Nat) (instruction : Instruction) :
    insertInPlace index instruction body =
      match body.insert index instruction with
      | .ok inserted => (.ok (), inserted)
      | .error error => (.error error, body) := by
  have hget : (get : ExceptT Error (StateM Body) Body) body = (.ok body, body) := rfl
  unfold insertInPlace
  rw [bind_apply, hget]
  dsimp only
  by_cases h : index ≤ body.instructions.length
  · rw [if_neg (by omega), show body.insert index instruction = .ok _ from if_pos h]
    rfl
  · rw [if_pos (by omega), insert_of_lt (by omega) instruction]
    rfl

/-- Up to its end, an instruction can be inserted at any index of a body, and all instructions and
references keep their identity; targets that were in order stay so. Behind the end nothing happens. -/
theorem insert_keeps_identity (body : Body) (index : Nat) (instruction : Instruction) :
    (index ≤ body.instructions.length → body.Addressable → ∃ inserted,
      body.insert index instruction = .ok inserted ∧
      insertInPlace index instruction body = (.ok (), inserted) ∧
      body.Inserted index instruction inserted ∧
      (body.checkTargets = .ok () →
        (∀ target, instruction.target? = some target → target < inserted.instructions.length) →
        inserted.checkTargets = .ok ())) ∧
    (body.instructions.length < index →
      body.insert index instruction = .error (.undefinedTarget index body.instructions.length) ∧
      insertInPlace index instruction body =
        (.error (.undefinedTarget index body.instructions.length), body)) := by
  constructor
  · intro hle ha
    obtain ⟨inserted, hi⟩ := insert_of_le hle instruction
    refine ⟨inserted, hi, ?_, ha.inserted hi, fun ht hnew => ?_⟩
    · rw [insertInPlace_eq, hi]
    · exact checkTargets_insert hi ht ha.targets ha.bounds hnew
  · intro hlt
    have hi := insert_of_lt hlt instruction
    refine ⟨hi, ?_⟩
    rw [insertInPlace_eq, hi]

/-- A filtered region whose handler starts where the protected instructions end, and a branch over both. -/
def adjacentRegions : Body where
  instructions := [{ opcode := .ldarg0 }, { opcode := .brtrueS, operand := .target 5 },
    { opcode := .leaveS, operand := .target 5, point := some (.hidden 0) }, { opcode := .pop },
    { opcode := .leaveS, operand := .target 5 }, { opcode := .ret }]
  handlers := [{ flags := .filterBlock, tryStart := 2, tryEnd := 3, handlerStart := 3, handlerEnd := 5,
                 filterStart := some 3 }]

theorem addressable_adjacentRegions : adjacentRegions.Addressable := by
  constructor <;> simp [adjacentRegions, Handler.bounds, Instruction.target?, indexLimit]

/-- Where the two regions meet, an instruction belongs to neither. -/
theorem insert_keeps_identity_adjacentRegions :
    3 ≤ adjacentRegions.instructions.length ∧ adjacentRegions.Addressable ∧
      adjacentRegions.checkTargets = .ok () ∧
      ∃ inserted, adjacentRegions.insert 3 { opcode := .brS, operand := .target 6 } = .ok inserted ∧
        adjacentRegions.Inserted 3 { opcode := .brS, operand := .target 6 } inserted ∧
        inserted.checkTargets = .ok () := by
  have hle : 3 ≤ adjacentRegions.instructions.length := by decide
  have ht : adjacentRegions.checkTargets = .ok () := rfl
  obtain ⟨inserted, hi, -, hkept, hstays⟩ := (insert_keeps_identity adjacentRegions 3
    { opcode := .brS, operand := .target 6 }).1 hle addressable_adjacentRegions
  refine ⟨hle, addressable_adjacentRegions, ht, inserted, hi, hkept, hstays ht fun target hbranch => ?_⟩
  cases hbranch
  rw [hkept.length]
  decide

end Body
end HotPatch
