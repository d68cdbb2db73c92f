import HotPatch.Proofs.Parts
import HotPatch.Signature.Basic

/-!
# The parts of a signature

A signature is built from base and arguments of an instantiation, the element of
a vector, or the target of a reference. What is asked of a whole signature is
asked of each of its parts.
-/

namespace HotPatch.TypeSig

variable {p : TypeSig → Prop}

/-- Induction over signatures, where the arguments of an instantiation are known one by one. -/
@[elab_as_elim]
theorem induct {motive : TypeSig → Prop} (primitive : ∀ type, motive (.primitive type))
    (named : ∀ token, motive (.class token)) (valueType : ∀ token, motive (.valueType token))
    (typeParam : ∀ index, motive (.typeParam index)) (methodParam : ∀ index, motive (.methodParam index))
    (generic : ∀ base args, motive base → (∀ arg ∈ args, motive arg) → motive (.generic base args))
    (vector : ∀ element, motive element → motive (.vector element))
    (byRef : ∀ target, motive target → motive (.byRef target)) (sig : TypeSig) : motive sig := by
  refine TypeSig.rec (motive_1 := motive) (motive_2 := fun args => ∀ arg ∈ args, motive arg) primitive named
    valueType typeParam methodParam generic vector byRef (fun _ h => by cases h) (fun head tail hhead htail => ?_) sig
  exact List.forall_mem_cons.mpr ⟨hhead, htail⟩

/-- What the signature is built from. -/
def children : TypeSig → List TypeSig
  | .primitive _ | .class _ | .valueType _ | .typeParam _ | .methodParam _ => []
  | .generic base args => base :: args
  | .vector element => [element]
  | .byRef target => [target]

theorem everywhere_generic {base : TypeSig} {args : List TypeSig} :
    Everywhere children p (.generic base args) ↔
      p (.generic base args) ∧ Everywhere children p base ∧ ∀ arg ∈ args, Everywhere children p arg := by
  rw [everywhere_iff, children, List.forall_mem_cons]

theorem everywhere_vector {element : TypeSig} :
    Everywhere children p (.vector element) ↔ p (.vector element) ∧ Everywhere children p element := by
  rw [everywhere_iff, children, List.forall_mem_singleton]

theorem everywhere_byRef {target : TypeSig} :
    Everywhere children p (.byRef target) ↔ p (.byRef target) ∧ Everywhere children p target := by
  rw [everywhere_iff, children, List.forall_mem_singleton]

end HotPatch.TypeSig
