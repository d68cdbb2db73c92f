import HotPatch.Code.Instruction

/-!
# Method bodies

A body is a list of instructions with protected regions. Region bounds and
filter starts are instruction indices; an end bound is exclusive and may equal
the number of instructions.
-/

namespace HotPatch

/-- The kinds of protected region. The bits are kept as given, known or not. -/
structure HandlerFlags where
  bits : UInt16
  deriving DecidableEq, Repr

namespace HandlerFlags

def filterBlock : HandlerFlags := ⟨1⟩
def finallyBlock : HandlerFlags := ⟨2⟩
def faultBlock : HandlerFlags := ⟨4⟩

def contains (flags part : HandlerFlags) : Bool := flags.bits &&& part.bits == part.bits

end HandlerFlags

structure Handler where
  flags : HandlerFlags
  tryStart : Nat
  tryEnd : Nat
  handlerStart : Nat
  handlerEnd : Nat
  classToken : Option Token := none
  filterStart : Option Nat := none
  deriving DecidableEq, Repr

/-- The stack depth on entry: finally and fault blocks start empty, the others with the exception. -/
def Handler.entryDepth (handler : Handler) : Nat :=
  if handler.flags.contains .finallyBlock || handler.flags.contains .faultBlock then 0 else 1

structure Body where
  instructions : List Code.Instruction := []
  handlers : List Handler := []
  maxStack : UInt16 := 0
  initLocals : Bool := false
  locals : Option Token := none
  deriving DecidableEq, Repr, Inhabited

end HotPatch
