import Mathlib.Tactic

/-!
# Parts of a tree

A tree is a part of itself, and the parts of its children are parts of it. A
condition on every place of a tree is a condition on its parts; it comes down to
the condition at the root and the same for the children.
-/

namespace HotPatch

variable {α : Type} {children : α → List α} {p : α → Prop} {whole : α}

/-- The tree occurs in another one, at any depth. -/
inductive PartOf (children : α → List α) (part : α) : α → Prop
  | self : PartOf children part part
  | inside {child whole : α} (mem : child ∈ children whole) (inner : PartOf children part child) :
    PartOf children part whole

/-- The condition holds at every place of the tree. -/
def Everywhere (children : α → List α) (p : α → Prop) (whole : α) : Prop :=
  ∀ part, PartOf children part whole → p part

theorem everywhere_iff :
    Everywhere children p whole ↔ p whole ∧ ∀ child ∈ children whole, Everywhere children p child := by
  constructor
  · intro h
    exact ⟨h whole .self, fun child hc part hp => h part (.inside hc hp)⟩
  · rintro ⟨hroot, hchildren⟩ part hp
    cases hp with
    | self => exact hroot
    | inside mem inner => exact hchildren _ mem part inner

/-- Where nothing is inside, only the root counts. -/
theorem everywhere_of_leaf (hleaf : children whole = []) : Everywhere children p whole ↔ p whole := by
  rw [everywhere_iff, hleaf]
  exact and_iff_left (List.forall_mem_nil _)

end HotPatch
