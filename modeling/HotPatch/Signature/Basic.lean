import HotPatch.Token

/-!
# Type and method signatures

A type signature is a built-in type, a named type behind a token, a generic
parameter of the surrounding type or method, or is built from these by generic
instantiation, vectors and references. Equality is decided by recursion on the
tree, since a signature occurs inside lists of itself.
-/

namespace HotPatch

/-- The types that need no token. -/
inductive Primitive where
  | void | boolean | char | i1 | u1 | i2 | u2 | i4 | u4 | i8 | u8 | r4 | r8 | string | object | i | u
  deriving DecidableEq, Repr

def Primitive.all : List Primitive :=
  [.void, .boolean, .char, .i1, .u1, .i2, .u2, .i4, .u4, .i8, .u8, .r4, .r8, .string, .object, .i, .u]

inductive TypeSig where
  | primitive (type : Primitive)
  | class (token : Token)
  | valueType (token : Token)
  | typeParam (index : Nat)
  | methodParam (index : Nat)
  | generic (base : TypeSig) (args : List TypeSig)
  | vector (element : TypeSig)
  | byRef (target : TypeSig)
  deriving Repr, Inhabited

namespace TypeSig

def void : TypeSig := .primitive .void

mutual

def same : TypeSig → TypeSig → Bool
  | .primitive a, .primitive b => a == b
  | .class a, .class b => a == b
  | .valueType a, .valueType b => a == b
  | .typeParam a, .typeParam b => a == b
  | .methodParam a, .methodParam b => a == b
  | .generic a as, .generic b bs => same a b && sameAll as bs
  | .vector a, .vector b => same a b
  | .byRef a, .byRef b => same a b
  | _, _ => false

def sameAll : List TypeSig → List TypeSig → Bool
  | [], [] => true
  | a :: as, b :: bs => same a b && sameAll as bs
  | _, _ => false

end

mutual

theorem same_refl : ∀ a : TypeSig, same a a = true
  | .primitive _ | .class _ | .valueType _ | .typeParam _ | .methodParam _ => by simp [same]
  | .generic a as => by simp [same, same_refl a, sameAll_refl as]
  | .vector a | .byRef a => by simp [same, same_refl a]

theorem sameAll_refl : ∀ as : List TypeSig, sameAll as as = true
  | [] => rfl
  | a :: as => by simp [sameAll, same_refl a, sameAll_refl as]

end

mutual

theorem eq_of_same : ∀ {a b : TypeSig}, same a b = true → a = b
  | .primitive _, b, h => by cases b <;> simp_all [same]
  | .class _, b, h => by cases b <;> simp_all [same]
  | .valueType _, b, h => by cases b <;> simp_all [same]
  | .typeParam _, b, h => by cases b <;> simp_all [same]
  | .methodParam _, b, h => by cases b <;> simp_all [same]
  | .generic a as, b, h => by
    cases b <;> simp only [same, Bool.and_eq_true, Bool.false_eq_true] at h
    rw [eq_of_same h.1, eq_of_sameAll h.2]
  | .vector a, b, h => by
    cases b <;> simp only [same, Bool.false_eq_true] at h
    rw [eq_of_same h]
  | .byRef a, b, h => by
    cases b <;> simp only [same, Bool.false_eq_true] at h
    rw [eq_of_same h]

theorem eq_of_sameAll : ∀ {as bs : List TypeSig}, sameAll as bs = true → as = bs
  | [], [], _ => rfl
  | [], _ :: _, h => by simp [sameAll] at h
  | _ :: _, [], h => by simp [sameAll] at h
  | a :: as, b :: bs, h => by
    simp only [sameAll, Bool.and_eq_true] at h
    rw [eq_of_same h.1, eq_of_sameAll h.2]

end

instance : DecidableEq TypeSig := fun a b =>
  decidable_of_iff (same a b = true) ⟨eq_of_same, fun h => h ▸ same_refl a⟩

def isVoid : TypeSig → Bool
  | .primitive .void => true
  | _ => false

mutual

/-- Whether no generic parameter occurs. -/
def isConcrete : TypeSig → Bool
  | .primitive _ | .class _ | .valueType _ => true
  | .typeParam _ | .methodParam _ => false
  | .generic base args => isConcrete base && allConcrete args
  | .vector element => isConcrete element
  | .byRef target => isConcrete target

def allConcrete : List TypeSig → Bool
  | [] => true
  | arg :: args => isConcrete arg && allConcrete args

end

end TypeSig

structure MethodSig where
  hasThis : Bool := false
  genericCount : Nat := 0
  returnType : TypeSig := .void
  params : List TypeSig := []
  deriving DecidableEq, Repr, Inhabited

namespace MethodSig

/-- Counts saturate here, as depths of the evaluation stack are 16 bits wide. -/
def slotLimit : Nat := 0xFFFF

/-- How many values a call takes off the stack. -/
def argumentSlots (sig : MethodSig) : Nat :=
  min slotLimit (min slotLimit sig.params.length + sig.hasThis.toNat)

/-- How many values a construction takes off the stack: the new object is not among them. -/
def constructorSlots (sig : MethodSig) : Nat := min slotLimit sig.params.length

end MethodSig
end HotPatch
