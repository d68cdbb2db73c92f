import HotPatch.Body.Target
import HotPatch.Code.StackDepth

/-!
# The stack that a body needs
-/

namespace HotPatch.Body

/-- The greatest depth of the evaluation stack, given the signatures of the methods that the body
calls and whether it returns a value. -/
def requiredStack (body : Body) (signature : Token → Result MethodSig) (returnsValue : Bool) :
    Result Nat := do
  body.checkTargets
  let length := body.instructions.length
  let state ← (Code.DepthAnalysis.start length).enterAll (Code.entries body)
  let state ← Code.visitAll signature returnsValue body.instructions.toArray length state
  return state.maxDepth

end HotPatch.Body
