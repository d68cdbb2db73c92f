import HotPatch.Error

/-!
# Targets inside a body

Branches must lead to an instruction of the body, and the bounds of protected
regions to an instruction or the end. Inserting an instruction keeps every
reference on the instruction that it named.
-/

namespace HotPatch

namespace Handler

def bounds (handler : Handler) : List Nat :=
  [handler.tryStart, handler.tryEnd, handler.handlerStart, handler.handlerEnd]

def checkRanges (handler : Handler) (length : Nat) : Result Unit :=
  match handler.bounds.find? (length < ·) with
  | some bound => .error (.undefinedTarget bound length)
  | none =>
    if handler.tryEnd ≤ handler.tryStart ∨ handler.handlerEnd ≤ handler.handlerStart then
      malformed (.emptyHandlerRange handler)
    else .ok ()

end Handler

/-- Indices are 64 bits wide. -/
def indexLimit : Nat := 0x10000000000000000

/-- Where a reference to an instruction points after an insertion at `index`. -/
def shiftStart (index position : Nat) : Nat :=
  if index ≤ position then (position + 1) % indexLimit else position

/-- Where an exclusive end bound points after an insertion at `index`. -/
def shiftEnd (index position : Nat) : Nat :=
  if index < position then (position + 1) % indexLimit else position

def Code.Instruction.shift (index : Nat) (instruction : Code.Instruction) : Code.Instruction :=
  match instruction.operand with
  | .target target => { instruction with operand := .target (shiftStart index target) }
  | _ => instruction

def Handler.shift (index : Nat) (handler : Handler) : Handler :=
  { handler with
    tryStart := shiftStart index handler.tryStart
    tryEnd := shiftEnd index handler.tryEnd
    handlerStart := shiftStart index handler.handlerStart
    handlerEnd := shiftEnd index handler.handlerEnd
    filterStart := handler.filterStart.map (shiftStart index) }

namespace Body

def checkBranches (body : Body) : Result Unit :=
  let length := body.instructions.length
  match (body.instructions.filterMap (·.target?)).find? (length ≤ ·) with
  | some target => .error (.undefinedTarget target length)
  | none => .ok ()

def checkTargets (body : Body) : Result Unit := do
  body.checkBranches
  let length := body.instructions.length
  body.handlers.forM (·.checkRanges length)

/-- Puts an instruction at an index, not behind the end. -/
def insert (body : Body) (index : Nat) (instruction : Code.Instruction) : Result Body :=
  if index ≤ body.instructions.length then
    .ok { body with
      instructions := (body.instructions.map (·.shift index)).insertIdx index instruction
      handlers := body.handlers.map (·.shift index) }
  else .error (.undefinedTarget index body.instructions.length)

end Body
end HotPatch
