import HotPatch.Code.StackDepth

/-!
# Assembling straight-line code

The assembler collects instructions and keeps count of the evaluation stack in 16
bits, as the analysis does, so that an instruction that would take more values
than there are is refused, and the greatest depth is known in the end.
-/

namespace HotPatch.Code

structure Assembler where
  instructions : Array Instruction := #[]
  depth : Nat := 0
  maxDepth : Nat := 0
  deriving DecidableEq, Repr

namespace Assembler

def emit (asm : Assembler) (instruction : Instruction) (pops pushes : Nat) : Result Assembler :=
  if asm.depth < pops then malformed (.emitUnderflow instruction.opcode asm.depth pops)
  else
    let depth := depthAfter asm.depth pops pushes
    .ok ⟨asm.instructions.push instruction, depth, max asm.maxDepth depth⟩

def nop (asm : Assembler) : Result Assembler := asm.emit { opcode := .nop } 0 0

/-- The shortest instruction that loads the argument with the given index. -/
def loadArgument (index : UInt16) : Instruction :=
  if index = 0 then { opcode := .ldarg0 }
  else if index = 1 then { opcode := .ldarg1 }
  else if index = 2 then { opcode := .ldarg2 }
  else if index = 3 then { opcode := .ldarg3 }
  else if index < 256 then .withVariable .ldargS index
  else .withVariable .ldarg index

def ldarg (asm : Assembler) (index : UInt16) : Result Assembler := asm.emit (loadArgument index) 0 1

def ldnull (asm : Assembler) : Result Assembler := asm.emit { opcode := .ldnull } 0 1

def dup (asm : Assembler) : Result Assembler := asm.emit { opcode := .dup } 1 2

def pop (asm : Assembler) : Result Assembler := asm.emit { opcode := .pop } 1 0

def ldtoken (asm : Assembler) (token : Token) : Result Assembler :=
  asm.emit (.withToken .ldtoken token) 0 1

def ldstr (asm : Assembler) (token : Token) : Result Assembler := asm.emit (.withToken .ldstr token) 0 1

/-- How many values a method of the given signature leaves. -/
def results (sig : MethodSig) : Nat := if sig.returnType.isVoid then 0 else 1

def call (asm : Assembler) (method : Token) (sig : MethodSig) : Result Assembler :=
  asm.emit (.withToken .call method) sig.argumentSlots (results sig)

def callvirt (asm : Assembler) (method : Token) (sig : MethodSig) : Result Assembler :=
  asm.emit (.withToken .callvirt method) sig.argumentSlots (results sig)

def newobj (asm : Assembler) (constructor : Token) (sig : MethodSig) : Result Assembler :=
  asm.emit (.withToken .newobj constructor) sig.constructorSlots 1

/-- Returns with the value on the stack, or without one if the stack is empty. -/
def ret (asm : Assembler) : Result Assembler :=
  if 1 < asm.depth then malformed (.valuesAtReturn asm.depth)
  else asm.emit { opcode := .ret } asm.depth 0

/-- The instructions, which must end in a return, and the greatest depth. -/
def finish (asm : Assembler) : Result (List Instruction × Nat) :=
  match asm.instructions.back? with
  | none => malformed .emptySequence
  | some last =>
    if last.opcode = .ret then .ok (asm.instructions.toList, asm.maxDepth)
    else malformed (.unfinishedSequence last.opcode)

end Assembler
end HotPatch.Code
