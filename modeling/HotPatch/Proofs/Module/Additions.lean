import HotPatch.Proofs.Module.ConsistentStore
import HotPatch.Proofs.Results

/-!
# Sequences of additions

All changes by which a module grows, as data, so that sequences of them can be
spoken of. An addition either fails and leaves the module alone or answers with
what leads to the added row, which is found there right away. In either case
the module stays consistent.
-/

namespace HotPatch.Module

/-- The ways in which a module grows. -/
inductive Addition where
  | typeRef (row : TypeRef)
  | typeDef (row : TypeDef)
  | field (row : FieldDef)
  | methodDef (row : MethodDef)
  | memberRef (row : MemberRef)
  | customAttribute (row : CustomAttribute)
  | locals (types : List TypeSig)
  | typeSpec (sig : TypeSig)
  | methodSpec (row : MethodSpec)
  | userString (value : String)
  | document (name : String)

/-- Documents have numbers, all else has tokens. -/
inductive Answer where
  | token (token : Token)
  | number (number : Nat)
  deriving DecidableEq

section Added

variable {module next : Module} {token : Token}

theorem typeDef?_of_addType {row : TypeDef} (h : module.addType row = .ok (token, next)) (hfit : next.RowsFit) :
    next.typeDef? token = some { row with fields := [], methods := [] } := by
  have hbound := hfit .typeDef
  unfold addType at h
  split at h
  · cases h
  · split at h
    · cases h
    · cases h
      exact rowAt?_push (by simpa [rowCount] using hbound)

theorem field?_of_addField {row : FieldDef} (h : module.addField row = .ok (token, next)) (hfit : next.RowsFit) :
    next.field? token = some row := by
  obtain ⟨htoken, hsame, -, -⟩ := addField_spec h
  have hfields : next.fields = module.fields.push row := by rw [hsame]
  have hbound := hfit .field
  rw [rowCount, hfields, Array.size_push] at hbound
  rw [field?, hfields, htoken]
  exact rowAt?_push hbound

theorem attribute?_of_addAttribute {row : CustomAttribute} (h : module.addAttribute row = .ok (token, next))
    (hfit : next.RowsFit) : next.attribute? token = some row := by
  have hbound := hfit .customAttribute
  unfold addAttribute at h
  split_ifs at h
  cases h
  exact rowAt?_push (by simpa [rowCount] using hbound)

theorem locals?_of_addLocals {types : List TypeSig} (h : module.addLocals types = (token, next))
    (hfit : next.RowsFit) : next.locals? token = some ⟨types⟩ := by
  have hbound := hfit .standAloneSig
  cases h
  exact rowAt?_push (by simpa [rowCount] using hbound)

theorem userString?_of_addUserString {value : String} (h : module.addUserString value = (token, next))
    (hstrings : next.userStrings.size < Token.rowLimit) : next.userString? token = some value := by
  obtain ⟨-, hpositive, hfound, -⟩ := shareRow_spec module.userStrings value
  cases h
  rw [userString?_eq_some_iff hstrings]
  exact ⟨_, by rw [Nat.sub_add_cancel (Nat.pos_of_ne_zero hpositive)]; rfl, hfound⟩

end Added

namespace Addition

/-- Makes the addition. -/
def perform : Addition → Edit Answer
  | typeRef row => .token <$> Edit.always (·.addTypeRef row)
  | typeDef row => .token <$> Edit.attempt (·.addType row)
  | field row => .token <$> Edit.attempt (·.addField row)
  | methodDef row => .token <$> Edit.attempt (·.addMethod row)
  | memberRef row => .token <$> Edit.always (·.addMemberRef row)
  | customAttribute row => .token <$> Edit.attempt (·.addAttribute row)
  | locals types => .token <$> Edit.always (·.addLocals types)
  | typeSpec sig => .token <$> Edit.always (·.addTypeSpec sig)
  | methodSpec row => .token <$> Edit.always (·.addMethodSpec row)
  | userString value => .token <$> Edit.always (·.addUserString value)
  | document name => .number <$> Edit.always (·.addDocument name)

/-- Makes one addition after the other, also after one that failed. -/
def performAll (additions : List Addition) (module : Module) : Module :=
  additions.foldl (fun module addition => (addition.perform module).2) module

/-- The answer of an addition leads to what was added. -/
inductive Stored (module : Module) : Addition → Answer → Prop where
  | typeRef {row : TypeRef} {token : Token} (found : module.typeRef? token = some row) :
    Stored module (.typeRef row) (.token token)
  | typeDef {row : TypeDef} {token : Token}
    (found : module.typeDef? token = some { row with fields := [], methods := [] }) :
    Stored module (.typeDef row) (.token token)
  | field {row : FieldDef} {token : Token} (found : module.field? token = some row) :
    Stored module (.field row) (.token token)
  | methodDef {row : MethodDef} {token : Token} (found : module.method? token = some row.normalized) :
    Stored module (.methodDef row) (.token token)
  | memberRef {row : MemberRef} {token : Token} (found : module.memberRef? token = some row) :
    Stored module (.memberRef row) (.token token)
  | customAttribute {row : CustomAttribute} {token : Token} (found : module.attribute? token = some row) :
    Stored module (.customAttribute row) (.token token)
  | locals {types : List TypeSig} {token : Token} (found : module.locals? token = some ⟨types⟩) :
    Stored module (.locals types) (.token token)
  | typeSpec {sig : TypeSig} {token : Token} (found : module.typeSpec? token = some ⟨sig⟩) :
    Stored module (.typeSpec sig) (.token token)
  | methodSpec {row : MethodSpec} {token : Token} (found : module.methodSpec? token = some row) :
    Stored module (.methodSpec row) (.token token)
  | userString {value : String} {token : Token} (found : module.userString? token = some value) :
    Stored module (.userString value) (.token token)
  | document {name : String} {number : Nat} (found : module.documents[number]? = some name) :
    Stored module (.document name) (.number number)

/-- How an addition can end: one that needs something that is missing fails and changes nothing. -/
inductive Ends (module : Module) : Addition → Result Answer × Module → Prop where
  | typeRef {row : TypeRef} {token : Token} {next : Module} (h : module.addTypeRef row = (token, next)) :
    Ends module (.typeRef row) (.ok (.token token), next)
  | typeDef {row : TypeDef} {token : Token} {next : Module} (h : module.addType row = .ok (token, next)) :
    Ends module (.typeDef row) (.ok (.token token), next)
  | field {row : FieldDef} {token : Token} {next : Module} (h : module.addField row = .ok (token, next)) :
    Ends module (.field row) (.ok (.token token), next)
  | methodDef {row : MethodDef} {token : Token} {next : Module} (h : module.addMethod row = .ok (token, next)) :
    Ends module (.methodDef row) (.ok (.token token), next)
  | memberRef {row : MemberRef} {token : Token} {next : Module} (h : module.addMemberRef row = (token, next)) :
    Ends module (.memberRef row) (.ok (.token token), next)
  | customAttribute {row : CustomAttribute} {token : Token} {next : Module}
    (h : module.addAttribute row = .ok (token, next)) :
    Ends module (.customAttribute row) (.ok (.token token), next)
  | locals {types : List TypeSig} {token : Token} {next : Module} (h : module.addLocals types = (token, next)) :
    Ends module (.locals types) (.ok (.token token), next)
  | typeSpec {sig : TypeSig} {token : Token} {next : Module} (h : module.addTypeSpec sig = (token, next)) :
    Ends module (.typeSpec sig) (.ok (.token token), next)
  | methodSpec {row : MethodSpec} {token : Token} {next : Module} (h : module.addMethodSpec row = (token, next)) :
    Ends module (.methodSpec row) (.ok (.token token), next)
  | userString {value : String} {token : Token} {next : Module} (h : module.addUserString value = (token, next)) :
    Ends module (.userString value) (.ok (.token token), next)
  | document {name : String} {number : Nat} {next : Module} (h : module.addDocument name = (number, next)) :
    Ends module (.document name) (.ok (.number number), next)
  | failed {addition : Addition} {error : Error} : Ends module addition (.error error, module)

section Steps

variable {module next : Module} {addition : Addition} {answer : Answer}

/-- A step that may fail either happens or changes nothing. -/
theorem attempt_cases {α β : Type} (change : α → β) (step : Module → Result (α × Module)) (module : Module) :
    (∃ value next, step module = .ok (value, next) ∧
      (change <$> Edit.attempt step) module = (.ok (change value), next)) ∨
      ∃ error, (change <$> Edit.attempt step) module = (.error error, module) := by
  have hrun : (change <$> Edit.attempt step) module =
      (Edit.attempt step >>= fun value => pure (change value)) module := rfl
  rw [hrun, bind_apply, Edit.attempt]
  rcases step module with error | ⟨value, next⟩
  · exact .inr ⟨error, rfl⟩
  · exact .inl ⟨value, next, rfl, rfl⟩

theorem perform_ends (addition : Addition) (module : Module) : Ends module addition (addition.perform module) := by
  cases addition with
  | typeRef row => exact .typeRef rfl
  | memberRef row => exact .memberRef rfl
  | locals types => exact .locals rfl
  | typeSpec sig => exact .typeSpec rfl
  | methodSpec row => exact .methodSpec rfl
  | userString value => exact .userString rfl
  | document name => exact .document rfl
  | typeDef row =>
    rw [perform]
    rcases attempt_cases Answer.token (·.addType row) module with ⟨token, next, h, hrun⟩ | ⟨error, hrun⟩ <;> rw [hrun]
    · exact .typeDef h
    · exact .failed
  | field row =>
    rw [perform]
    rcases attempt_cases Answer.token (·.addField row) module with ⟨token, next, h, hrun⟩ | ⟨error, hrun⟩ <;> rw [hrun]
    · exact .field h
    · exact .failed
  | methodDef row =>
    rw [perform]
    rcases attempt_cases Answer.token (·.addMethod row) module with ⟨token, next, h, hrun⟩ | ⟨error, hrun⟩ <;> rw [hrun]
    · exact .methodDef h
    · exact .failed
  | customAttribute row =>
    rw [perform]
    rcases attempt_cases Answer.token (·.addAttribute row) module with ⟨token, next, h, hrun⟩ | ⟨error, hrun⟩ <;>
      rw [hrun]
    · exact .customAttribute h
    · exact .failed

/-- What is built stays built. -/
theorem built_perform (addition : Addition) (h : Built module) : Built (addition.perform module).2 := by
  have hends := perform_ends addition module
  generalize addition.perform module = result at hends
  cases hends with
  | typeRef hrow => exact congrArg Prod.snd hrow ▸ h.addTypeRef _
  | memberRef hrow => exact congrArg Prod.snd hrow ▸ h.addMemberRef _
  | locals hrow => exact congrArg Prod.snd hrow ▸ h.addLocals _
  | typeSpec hrow => exact congrArg Prod.snd hrow ▸ h.addTypeSpec _
  | methodSpec hrow => exact congrArg Prod.snd hrow ▸ h.addMethodSpec _
  | userString hvalue => exact congrArg Prod.snd hvalue ▸ h.addUserString _
  | document hname => exact congrArg Prod.snd hname ▸ h.addDocument _
  | typeDef hrow => exact h.addType hrow
  | field hrow => exact h.addField hrow
  | methodDef hrow => exact h.addMethod hrow
  | customAttribute hrow => exact h.addAttribute hrow
  | failed => exact h

theorem built_performAll (additions : List Addition) (h : Built module) : Built (performAll additions module) := by
  induction additions generalizing module with
  | nil => exact h
  | cons addition additions ih => exact ih (built_perform addition h)

theorem eq_of_perform_eq_error {error : Error} (h : addition.perform module = (.error error, next)) :
    next = module := by
  have hends := perform_ends addition module
  rw [h] at hends
  cases hends
  rfl

/-- A successful addition is found under its answer. -/
theorem stored_of_perform_eq_ok (h : addition.perform module = (.ok answer, next)) (hfit : next.RowsFit)
    (hstrings : next.userStrings.size < Token.rowLimit) : Stored next addition answer := by
  have hends := perform_ends addition module
  rw [h] at hends
  cases hends with
  | typeRef hrow => exact .typeRef (typeRef?_addTypeRef hrow hfit)
  | typeDef hrow => exact .typeDef (typeDef?_of_addType hrow hfit)
  | field hrow => exact .field (field?_of_addField hrow hfit)
  | methodDef hrow => exact .methodDef (method?_addMethod hrow hfit)
  | memberRef hrow => exact .memberRef (memberRef?_addMemberRef hrow hfit)
  | customAttribute hrow => exact .customAttribute (attribute?_of_addAttribute hrow hfit)
  | locals hrow => exact .locals (locals?_of_addLocals hrow hfit)
  | typeSpec hrow => exact .typeSpec (typeSpec?_addTypeSpec hrow hfit)
  | methodSpec hrow => exact .methodSpec (methodSpec?_addMethodSpec hrow hfit)
  | userString hvalue => exact .userString (userString?_of_addUserString hvalue hstrings)
  | document hname =>
    cases hname
    exact .document (shareRow_spec module.documents _).found

end Steps

/-- Additions to an empty module keep it consistent, each either failing without effect or leading to
the row that it added. -/
theorem performAll_consistent (name : String) (versionId : VersionId) (additions : List Addition) :
    let module := performAll additions { name, versionId }
    module.RowsFit → module.userStrings.size < Token.rowLimit → module.Consistent ∧
      ∀ addition : Addition,
        (∀ error next, addition.perform module = (.error error, next) → next = module) ∧
          ∀ answer next, addition.perform module = (.ok answer, next) → next.RowsFit →
            next.userStrings.size < Token.rowLimit → Stored next addition answer := by
  intro module hfit hstrings
  have hbuilt : module.Built := built_performAll additions (.new name versionId)
  exact ⟨hbuilt.consistent hfit hstrings, fun addition => ⟨fun error next => eq_of_perform_eq_error,
    fun answer next => stored_of_perform_eq_ok⟩⟩

/-- A nested type with a field and an overloaded method; the last two additions need what is not there. -/
def nestedTypes : List Addition :=
  [.typeRef ⟨.assembly "mscorlib", ⟨"System", "Object"⟩⟩,
    .typeDef { name := ⟨"App", "Outer"⟩, base := some (.ofRow .typeRef 1) },
    .typeDef { name := ⟨"", "Inner"⟩, enclosing := some (.ofRow .typeDef 1) },
    .methodDef { owner := .ofRow .typeDef 2, name := "Run", flags := .static, generics := ["T"] },
    .field { owner := .ofRow .typeDef 2, name := "count", flags := 0, type := .primitive .i4 },
    .methodDef { owner := .ofRow .typeDef 1, name := "Main" },
    .methodDef { owner := .ofRow .typeDef 2, name := "Run" },
    .memberRef ⟨.ofRow .typeRef 1, ".ctor", {}⟩,
    .typeSpec (.vector (.class (.ofRow .typeDef 2))), .typeSpec (.vector (.class (.ofRow .typeDef 2))),
    .methodSpec ⟨.ofRow .methodDef 1, [.primitive .i4]⟩, .locals [.primitive .i4], .locals [.primitive .i4],
    .userString "hello", .document "Outer.cs", .userString "hello",
    .customAttribute ⟨.ofCode userStringCode 1, .ofRow .memberRef 1, {}⟩,
    .field { owner := .ofRow .typeDef 3, name := "lost", flags := 0, type := .primitive .i4 },
    .customAttribute ⟨.ofRow .typeDef 1, .ofRow .typeRef 1, {}⟩]

theorem performAll_consistent_nestedTypes :
    let module := performAll nestedTypes { name := "Patch" }
    module.RowsFit ∧ module.userStrings.size < Token.rowLimit ∧ module.Consistent ∧
      ((module.typeDef? (.ofRow .typeDef 2)).map (·.methods) =
        some [.ofRow .methodDef 1, .ofRow .methodDef 3]) := by
  intro module
  have hfit : module.RowsFit := by
    intro table
    cases table <;> decide +kernel
  have hstrings : module.userStrings.size < Token.rowLimit := by decide +kernel
  exact ⟨hfit, hstrings, (performAll_consistent "Patch" _ nestedTypes hfit hstrings).1, by decide +kernel⟩

end Addition
end HotPatch.Module
