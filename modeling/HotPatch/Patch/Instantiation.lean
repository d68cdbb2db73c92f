import HotPatch.Signature.Basic

/-!
# Instantiations of generic methods

A record lists the instantiations of a generic method that the base module
uses. Records with instantiations are numbered in their order.
-/

namespace HotPatch

structure Instantiation where
  typeArgs : List TypeSig := []
  methodArgs : List TypeSig := []
  /-- How the base module refers to the instantiated method. -/
  base : Token
  wrapper : Option Token := none
  deriving DecidableEq, Repr

def Instantiation.allArgs (inst : Instantiation) : List TypeSig := inst.typeArgs ++ inst.methodArgs

structure GenericRecord where
  method : Token
  ordinal : Option Nat := none
  instantiations : List Instantiation := []
  deriving DecidableEq, Repr

/-- The next number to be given out. -/
structure OrdinalAllocator where
  next : Nat := 0
  deriving DecidableEq, Repr

def OrdinalAllocator.allocate (ordinals : OrdinalAllocator) : Nat × OrdinalAllocator :=
  (ordinals.next, ⟨ordinals.next + 1⟩)

end HotPatch
