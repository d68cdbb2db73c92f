import HotPatch.Proofs.Module.Extension
import HotPatch.Proofs.Module.ImportSteps

/-!
# Imports settle

An import that succeeds adds references and nothing else. Once they are there,
the same import answers the same token again and leaves the module alone, now
and in everything that the module grows into.
-/

namespace HotPatch

variable {α β : Type}

/-- An edit that adds references, and that repeats its answer as long as they stay. -/
def Edit.Settles (edit : Edit α) : Prop :=
  ∀ module value next, edit module = (.ok value, next) → module.AddsReferences next ∧
    ∀ later, next.KeepsReferences later → edit later = (.ok value, later)

namespace Edit.Settles

variable {edit : Edit α}

theorem pure (value : α) : Settles (Pure.pure value : Edit α) := by
  intro module value' next h
  obtain ⟨rfl, rfl⟩ := run_pure_eq_ok.mp h
  exact ⟨.refl _, fun _ _ => rfl⟩

theorem fail (error : Error) : Settles (throw error : Edit α) := by
  intro module value next h
  exact absurd h Edit.throw_ne_ok

/-- What is looked up elsewhere does not depend on the module. -/
theorem inspect (result : Result α) : Settles (Edit.inspect fun _ => result) := by
  intro module value next h
  obtain ⟨hr, rfl⟩ := Edit.inspect_eq_ok.mp h
  exact ⟨.refl _, fun _ _ => Edit.inspect_eq_ok.mpr ⟨hr, rfl⟩⟩

theorem bind {next : α → Edit β} (he : Settles edit) (hn : ∀ value, Settles (next value)) :
    Settles (edit >>= next) := by
  intro module value last h
  obtain ⟨first, middle, h₁, h₂⟩ := run_bind_eq_ok.mp h
  obtain ⟨ha, hagain⟩ := he module first middle h₁
  obtain ⟨ha', hagain'⟩ := hn first middle value last h₂
  refine ⟨ha.trans ha', fun later hl => ?_⟩
  exact run_bind_eq_ok.mpr ⟨first, later, hagain later (ha'.toKeepsReferences.trans hl), hagain' later hl⟩

theorem addTypeRef (row : TypeRef) : Settles (Edit.always (·.addTypeRef row)) := by
  intro module token next h
  have hspec := shareRow_spec module.typeRefs row
  cases Edit.always_eq_ok.mp h
  refine ⟨module.addTypeRef_adds row, fun later hl => Edit.always_eq_ok.mpr ?_⟩
  rw [Module.addTypeRef, hspec.again later.typeRefs hl.typeRefs]
  rfl

theorem addMemberRef (row : MemberRef) : Settles (Edit.always (·.addMemberRef row)) := by
  intro module token next h
  have hspec := shareRow_spec module.memberRefs row
  cases Edit.always_eq_ok.mp h
  refine ⟨module.addMemberRef_adds row, fun later hl => Edit.always_eq_ok.mpr ?_⟩
  rw [Module.addMemberRef, hspec.again later.memberRefs hl.memberRefs]
  rfl

theorem addTypeSpec (sig : TypeSig) : Settles (Edit.always (·.addTypeSpec sig)) := by
  intro module token next h
  have hspec := shareRow_spec module.typeSpecs ⟨sig⟩
  cases Edit.always_eq_ok.mp h
  refine ⟨module.addTypeSpec_adds sig, fun later hl => Edit.always_eq_ok.mpr ?_⟩
  rw [Module.addTypeSpec, hspec.again later.typeSpecs hl.typeSpecs]
  rfl

theorem addMethodSpec (row : MethodSpec) : Settles (Edit.always (·.addMethodSpec row)) := by
  intro module token next h
  have hspec := shareRow_spec module.methodSpecs row
  cases Edit.always_eq_ok.mp h
  refine ⟨module.addMethodSpec_adds row, fun later hl => Edit.always_eq_ok.mpr ?_⟩
  rw [Module.addMethodSpec, hspec.again later.methodSpecs hl.methodSpecs]
  rfl

theorem closed : Edit.Closed fun _ edit => Settles edit where
  pure := Settles.pure
  fail := Settles.fail
  inspect := Settles.inspect
  bind := Settles.bind
  addTypeRef := addTypeRef
  addMemberRef := addMemberRef
  addTypeSpec := addTypeSpec
  addMethodSpec := addMethodSpec

end Edit.Settles

namespace Module

open Edit (Settles)

variable (source : Module)

theorem importWithin_settles (levels : Nat) :
    (∀ token, Settles (source.importTypeWithin levels token)) ∧
      ∀ sig, Settles (source.importSigWithin levels sig) :=
  Settles.closed.importWithin source levels

theorem importMethodWithin_settles (levels : Nat) (token : Token) :
    Settles (source.importMethodWithin levels token) :=
  Settles.closed.importMethodWithin source levels token

/-- Importing a method that was imported before changes nothing. -/
theorem importMethod_settles (token : Token) : Settles (source.importMethod token) :=
  source.importMethodWithin_settles _ token

end Module
end HotPatch
