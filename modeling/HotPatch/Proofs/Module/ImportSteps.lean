import HotPatch.Module.Import
import HotPatch.Proofs.Results

/-!
# The steps of an import

An import looks rows up in the source, which no change of the target reaches,
and shares four kinds of rows with the target. A property of edits that holds
of these steps and goes from step to step holds of every import.
-/

namespace HotPatch

/-- A property of edits that the steps of an import have and that their sequences keep. -/
structure Edit.Closed (P : (α : Type) → Edit α → Prop) : Prop where
  pure : ∀ {α : Type} (value : α), P α (Pure.pure value)
  fail : ∀ {α : Type} (error : Error), P α (throw error)
  inspect : ∀ {α : Type} (result : Result α), P α (Edit.inspect fun _ => result)
  bind : ∀ {α β : Type} {edit : Edit α} {next : α → Edit β}, P α edit → (∀ value, P β (next value)) →
    P β (edit >>= next)
  addTypeRef : ∀ row, P Token (Edit.always (·.addTypeRef row))
  addMemberRef : ∀ row, P Token (Edit.always (·.addMemberRef row))
  addTypeSpec : ∀ sig, P Token (Edit.always (·.addTypeSpec sig))
  addMethodSpec : ∀ row, P Token (Edit.always (·.addMethodSpec row))

namespace Edit.Closed

variable {P : (α : Type) → Edit α → Prop} (h : Closed P)

include h

theorem map {α β : Type} {edit : Edit α} (change : α → β) (he : P α edit) : P β (change <$> edit) :=
  h.bind he fun value => h.pure (change value)

theorem mapM {α β : Type} (items : List α) {step : α → Edit β} (hs : ∀ item, P β (step item)) :
    P (List β) (items.mapM step) := by
  induction items with
  | nil => exact h.pure []
  | cons item items ih =>
    rw [List.mapM_cons]
    exact h.bind (hs item) fun value => h.bind ih fun rest => h.pure (value :: rest)

variable (source : Module)

theorem importWithin (levels : Nat) :
    (∀ token, P Token (source.importTypeWithin levels token)) ∧
      ∀ sig, P TypeSig (source.importSigWithin levels sig) := by
  induction levels with
  | zero =>
    constructor
    · intro token
      rw [Module.importTypeWithin]
      exact h.fail _
    · intro sig
      rw [Module.importSigWithin]
      exact h.fail _
  | succ levels ih =>
    obtain ⟨iht, ihs⟩ := ih
    constructor
    · intro token
      rw [Module.importTypeWithin]
      split
      · apply h.bind (h.inspect _)
        intro row
        dsimp only
        split
        · exact h.bind (h.map _ (iht _)) fun scope => h.addTypeRef _
        · exact h.bind (h.pure _) fun scope => h.addTypeRef _
      · apply h.bind (h.inspect _)
        intro row
        dsimp only
        split
        · exact h.bind (h.map _ (iht _)) fun scope => h.addTypeRef _
        · exact h.bind (h.pure _) fun scope => h.addTypeRef _
      · apply h.bind (h.inspect _)
        intro row
        exact h.bind (ihs _) fun sig => h.addTypeSpec sig
      · exact h.fail _
    · intro sig
      unfold Module.importSigWithin
      split
      · exact h.bind (iht _) fun token => h.pure _
      · exact h.bind (iht _) fun token => h.pure _
      · exact h.bind (ihs _) fun base => h.bind (h.mapM _ ihs) fun args => h.pure _
      · exact h.bind (ihs _) fun element => h.pure _
      · exact h.bind (ihs _) fun target => h.pure _
      all_goals exact h.pure _

theorem importMethodSigWithin (levels : Nat) (sig : MethodSig) :
    P MethodSig (source.importMethodSigWithin levels sig) := by
  have hs := (h.importWithin source levels).2
  exact h.bind (hs _) fun returnType => h.bind (h.mapM _ hs) fun params => h.pure _

theorem importMemberWithin (levels : Nat) (parent : Token) (name : String) (sig : MethodSig) :
    P Token (source.importMemberWithin levels parent name sig) := by
  apply h.bind ((h.importWithin source levels).1 parent)
  intro parent
  exact h.bind (h.importMethodSigWithin source levels sig) fun sig => h.addMemberRef _

theorem importMethodWithin (levels : Nat) (token : Token) :
    P Token (source.importMethodWithin levels token) := by
  induction levels generalizing token with
  | zero => exact h.fail _
  | succ levels ih =>
    rw [Module.importMethodWithin]
    split
    · exact h.bind (h.inspect _) fun method => h.importMemberWithin source levels _ _ _
    · exact h.bind (h.inspect _) fun row => h.importMemberWithin source levels _ _ _
    · apply h.bind (h.inspect _)
      intro row
      apply h.bind (ih _)
      intro method
      exact h.bind (h.mapM _ (h.importWithin source levels).2) fun args => h.addMethodSpec _
    · exact h.fail _

end Edit.Closed
end HotPatch
