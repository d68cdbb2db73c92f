import HotPatch.Proofs.Module.Built

/-!
# Invariants of modules that were built

Most additions leave the definitions and attributes alone. A property that
survives these and holds through the five changes that do not, holds of every
module that was built, as long as the rows of the module have tokens: tables
only grow, so the same goes for all modules on the way.
-/

namespace HotPatch.Module

/-- Definitions and attributes stayed, and no table lost a row. -/
structure Quiet (before after : Module) : Prop where
  same : after = { before with
    typeRefs := after.typeRefs, memberRefs := after.memberRefs, locals := after.locals,
    typeSpecs := after.typeSpecs, methodSpecs := after.methodSpecs, userStrings := after.userStrings,
    documents := after.documents }
  grows : Grows before after
  strings : before.userStrings.size ≤ after.userStrings.size

/-- A property that the empty module has and that all changes keep. -/
structure Invariant (P : Module → Prop) : Prop where
  new : ∀ name versionId, P { name, versionId }
  quiet : ∀ {before after}, Quiet before after → P before → P after
  addType : ∀ {before after row token}, before.addType row = .ok (token, after) → after.RowsFit →
    P before → P after
  addField : ∀ {before after row token}, before.addField row = .ok (token, after) → after.RowsFit →
    P before → P after
  addMethod : ∀ {before after row token}, before.addMethod row = .ok (token, after) → after.RowsFit →
    P before → P after
  addAttribute : ∀ {before after row token}, before.addAttribute row = .ok (token, after) → P before → P after
  setBody : ∀ {before after token body},
    (before.modifyMethod? token fun row => { row with body }) = some after → P before → P after

section Growth

variable {before after : Module}

theorem AddsReferences.quiet (h : before.AddsReferences after) : Quiet before after where
  same := by rw [h.same]
  grows := (h.extension none).grows
  strings := by rw [h.same]

theorem addUserString_quiet (module : Module) (value : String) : Quiet module (module.addUserString value).2 where
  same := rfl
  grows := Built.addUserString_grows module value
  strings := size_le_size (shareRow_spec module.userStrings value).grows

theorem addDocument_quiet (module : Module) (name : String) : Quiet module (module.addDocument name).2 where
  same := rfl
  grows := Built.addDocument_grows module name
  strings := le_rfl

theorem addLocals_quiet (module : Module) (types : List TypeSig) : Quiet module (module.addLocals types).2 where
  same := rfl
  grows := Built.addLocals_grows module types
  strings := le_rfl

/-- What a module contains, a module with more rows contains. -/
theorem contains_mono (h : Grows before after) (hs : before.userStrings.size ≤ after.userStrings.size)
    {token : Token} (hc : before.contains token) : after.contains token := by
  unfold Module.contains at hc ⊢
  rw [Bool.and_eq_true] at hc ⊢
  refine ⟨hc.1, ?_⟩
  have hrow := hc.2
  by_cases hcode : token.tableCode = userStringCode
  · rw [if_pos hcode, decide_eq_true_eq] at hrow ⊢
    exact hrow.trans hs
  · rw [if_neg hcode, Option.any_eq_true] at hrow ⊢
    obtain ⟨table, ht, hrow⟩ := hrow
    rw [decide_eq_true_eq] at hrow
    exact ⟨table, ht, decide_eq_true (hrow.trans (h table))⟩

end Growth

theorem Built.holds {P : Module → Prop} {module : Module} (h : Built module) (hp : Invariant P)
    (hfit : module.RowsFit) : P module := by
  -- The rows of the earlier modules have tokens too, since the tables have only grown since.
  have hquiet : ∀ {a b : Module}, Quiet a b → b.RowsFit → (a.RowsFit → P a) → P b := by
    intro a b hq hfit ih
    exact hp.quiet hq (ih (hq.grows.rowsFit hfit))
  induction h with
  | new name versionId => exact hp.new name versionId
  | @addTypeRef before _ row ih => exact hquiet (before.addTypeRef_adds row).quiet hfit ih
  | @addMemberRef before _ row ih => exact hquiet (before.addMemberRef_adds row).quiet hfit ih
  | @addTypeSpec before _ sig ih => exact hquiet (before.addTypeSpec_adds sig).quiet hfit ih
  | @addMethodSpec before _ row ih => exact hquiet (before.addMethodSpec_adds row).quiet hfit ih
  | addUserString _ value ih => exact hquiet (addUserString_quiet _ value) hfit ih
  | addDocument _ name ih => exact hquiet (addDocument_quiet _ name) hfit ih
  | addLocals _ types ih => exact hquiet (addLocals_quiet _ types) hfit ih
  | addType _ ha ih => exact hp.addType ha hfit (ih ((addType_grows ha).rowsFit hfit))
  | addField _ ha ih => exact hp.addField ha hfit (ih ((addField_grows ha).rowsFit hfit))
  | addMethod _ ha ih => exact hp.addMethod ha hfit (ih ((addMethod_extension ha).grows.rowsFit hfit))
  | addAttribute _ ha ih => exact hp.addAttribute ha (ih ((addAttribute_extension ha).grows.rowsFit hfit))
  | setBody _ hs ih => exact hp.setBody hs (ih ((setBody_extension none hs).grows.rowsFit hfit))

end HotPatch.Module
