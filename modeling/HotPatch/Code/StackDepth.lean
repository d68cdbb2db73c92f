import HotPatch.Error

/-!
# Depth of the evaluation stack

Each instruction takes values off the stack and puts values on it. The analysis
follows the control flow from the entry, the handlers and the filters with the
depth on entry, visits each instruction once, and demands that all ways to an
instruction agree on the depth. The result is the greatest depth before or
after a visited instruction.

Depths are counted in 16 bits, and the count wraps around: a stack that grows
beyond `0xFFFF` values counts as one that starts again from zero.
-/

namespace HotPatch.Code

/-- How many depths can be told apart. -/
def depthRange : Nat := 0x10000

/-- The depth that is counted after values were taken off a stack and put on it. -/
def depthAfter (depth pops pushes : Nat) : Nat := (depth - pops + pushes) % depthRange

theorem depthAfter_of_lt {depth pops pushes : Nat} (h : depth - pops + pushes < depthRange) :
    depthAfter depth pops pushes = depth - pops + pushes := Nat.mod_eq_of_lt h

/-- All values are taken. -/
@[simp]
theorem depthAfter_self (depth : Nat) : depthAfter depth depth 0 = 0 := by
  rw [depthAfter, Nat.sub_self, Nat.zero_add, Nat.zero_mod]

/-- How many values the instruction takes off a stack of the given depth and puts on it. -/
def stackEffect (signature : Token → Result MethodSig) (returnsValue : Bool) (depth : Nat)
    (instruction : Instruction) : Result (Nat × Nat) :=
  let info := instruction.info
  let effect (called : MethodSig) : Nat × Nat :=
    (match info.pops with
      | .fixed count => count
      | .call => called.argumentSlots
      | .construct => called.constructorSlots
      | .return => returnsValue.toNat
      | .all => depth,
    match info.pushes with
      | .fixed count => count
      | .call => if called.returnType.isVoid then 0 else 1)
  if info.pops = .call ∨ info.pops = .construct ∨ info.pushes = .call then
    match instruction.token? with
    | some token => (signature token).map effect
    | none => malformed (.missingToken instruction.opcode)
  else .ok (effect {})

/-- The state of the analysis: the depth on entry to each instruction that was reached, and those of
them whose successors are still to be visited, the last one reached first. -/
structure DepthAnalysis where
  depths : Array (Option Nat)
  work : List Nat
  maxDepth : Nat
  deriving DecidableEq, Repr

namespace DepthAnalysis

def start (length : Nat) : DepthAnalysis := ⟨Array.replicate length none, [], 0⟩

/-- Reaches an instruction with the given depth. -/
def enter (state : DepthAnalysis) (index depth : Nat) : Result DepthAnalysis :=
  match state.depths[index]? with
  | none => malformed .openEnd
  | some (some existing) =>
    if existing = depth then .ok state else malformed (.inconsistentDepth index existing depth)
  | some none =>
    .ok { state with depths := state.depths.set! index (some depth), work := index :: state.work }

def enterAll (state : DepthAnalysis) (entries : List (Nat × Nat)) : Result DepthAnalysis :=
  entries.foldlM (fun state (index, depth) => state.enter index depth) state

def reachDepth (state : DepthAnalysis) (depth : Nat) : DepthAnalysis :=
  { state with maxDepth := max state.maxDepth depth }

end DepthAnalysis

/-- The instructions to which control may go from the instruction with the given index. -/
def successors (index : Nat) (instruction : Instruction) : List Nat :=
  match instruction.info.flow with
  | .sequential | .call => [index + 1]
  | .conditionalBranch => instruction.target?.toList ++ [index + 1]
  | .unconditionalBranch | .leave => instruction.target?.toList
  | .return | .throw | .endFinally => []

/-- Visits one instruction: checks its effect at the given depth and reaches its successors. -/
def visit (signature : Token → Result MethodSig) (returnsValue : Bool) (index depth : Nat)
    (instruction : Instruction) (state : DepthAnalysis) : Result DepthAnalysis := do
  let (pops, pushes) ← stackEffect signature returnsValue depth instruction
  if depth < pops then malformed (.underflow index instruction.opcode depth pops)
  else
    let after := depthAfter depth pops pushes
    let state := (state.reachDepth depth).reachDepth after
    if instruction.info.flow = .return ∧ after ≠ 0 then malformed (.slotsAtReturn index after)
    else state.enterAll ((successors index instruction).map (·, after))

/-- Visits reached instructions until none is left. Each is reached once, so as many visits as there
are instructions are enough. -/
def visitAll (signature : Token → Result MethodSig) (returnsValue : Bool)
    (instructions : Array Instruction) : Nat → DepthAnalysis → Result DepthAnalysis
  | 0, state => .ok state
  | fuel + 1, state =>
    match state.work with
    | [] => .ok state
    | index :: work =>
      match instructions[index]?, state.depths[index]? with
      | some instruction, some (some depth) => do
        let state ← visit signature returnsValue index depth instruction { state with work }
        visitAll signature returnsValue instructions fuel state
      | _, _ => visitAll signature returnsValue instructions fuel { state with work }

/-- Where control enters a body from outside, with the depths. -/
def entries (body : Body) : List (Nat × Nat) :=
  (if body.instructions.isEmpty then [] else [(0, 0)]) ++
    body.handlers.flatMap fun handler =>
      (handler.handlerStart, handler.entryDepth) :: (handler.filterStart.map (·, 1)).toList

end HotPatch.Code
