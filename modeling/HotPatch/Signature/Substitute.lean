import HotPatch.Error

/-!
# Substitution of generic arguments

Each parameter is replaced by the argument at its index, without looking inside
the argument. An index without an argument makes the substitution fail; of two
such indices the one that stands first in the signature is reported.
-/

namespace HotPatch

namespace TypeSig

/-- The argument for a parameter. -/
def argument (args : List TypeSig) (index : Nat) (cause : OpenCause) : Result TypeSig :=
  match args[index]? with
  | some arg => .ok arg
  | none => .error (.notConcrete cause)

mutual

def substitute (typeArgs methodArgs : List TypeSig) : TypeSig → Result TypeSig
  | .primitive type => .ok (.primitive type)
  | .class token => .ok (.class token)
  | .valueType token => .ok (.valueType token)
  | .typeParam index => argument typeArgs index (.typeParam index)
  | .methodParam index => argument methodArgs index (.methodParam index)
  | .generic base args => do
    let base ← substitute typeArgs methodArgs base
    return .generic base (← substituteAll typeArgs methodArgs args)
  | .vector element => return .vector (← substitute typeArgs methodArgs element)
  | .byRef target => return .byRef (← substitute typeArgs methodArgs target)

def substituteAll (typeArgs methodArgs : List TypeSig) : List TypeSig → Result (List TypeSig)
  | [] => .ok []
  | arg :: args => do
    let arg ← substitute typeArgs methodArgs arg
    return arg :: (← substituteAll typeArgs methodArgs args)

end

end TypeSig

/-- The signature after instantiation: it has no generic parameters of its own any more. -/
def MethodSig.substitute (typeArgs methodArgs : List TypeSig) (sig : MethodSig) : Result MethodSig := do
  let returnType ← sig.returnType.substitute typeArgs methodArgs
  let params ← TypeSig.substituteAll typeArgs methodArgs sig.params
  return { hasThis := sig.hasThis, genericCount := 0, returnType, params }

end HotPatch
