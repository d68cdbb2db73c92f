import HotPatch.Proofs.Module.Additions
import HotPatch.Proofs.Module.NestedNames

/-!
# Full names

Every token has a full name or an error that tells why not: the walk outwards
meets a token that names no type, or it is too long, as it is in a circle.
Additions, whatever they are and whether they succeed, leave the rows of types
alone but for their lists of members, so names stay.
-/

namespace HotPatch.Module

namespace Addition

variable {module : Module}

/-- A change of one type's list of members keeps all types. -/
theorem keepsTypes_of_members {next : Module} {owner : Token} {change : TypeDef → TypeDef}
    (href : next.typeRefs = module.typeRefs)
    (hdef : ∀ token, next.typeDef? token =
      (module.typeDef? token).map fun type => if owner = token then change type else type)
    (hc : ∀ type, ∃ fields methods, change type = { type with fields, methods }) : KeepsTypes module next where
  typeRef token row hr := by rwa [typeRef?, href]
  typeDef token row hr := by
    rw [hdef, hr, Option.map_some]
    by_cases ho : owner = token
    · obtain ⟨fields, methods, hchange⟩ := hc row
      exact ⟨fields, methods, by rw [if_pos ho, hchange]⟩
    · exact ⟨row.fields, row.methods, by rw [if_neg ho]⟩

/-- Adding anything keeps all types. -/
theorem keepsTypes_perform (addition : Addition) (module : Module) :
    KeepsTypes module (addition.perform module).2 := by
  have hends := perform_ends addition module
  generalize addition.perform module = result at hends
  cases hends with
  | typeRef hrow =>
    cases hrow
    exact .of_appended (shareRow_spec module.typeRefs _).grows (List.prefix_refl _)
  | typeDef hrow =>
    obtain ⟨hnext, -⟩ := addType_spec hrow
    exact hnext ▸ .of_appended (List.prefix_refl _) (toList_prefix_push module.typeDefs _)
  | @field row token next hrow =>
    obtain ⟨-, hnext, -, hdef⟩ := addField_spec hrow
    exact keepsTypes_of_members (by rw [hnext]) hdef fun type => ⟨type.fields ++ [token], type.methods, rfl⟩
  | @methodDef row token next hrow =>
    obtain ⟨-, -, hnext, -, hdef⟩ := addMethod_spec hrow
    exact keepsTypes_of_members (by rw [hnext]) hdef fun type => ⟨type.fields, type.methods ++ [token], rfl⟩
  | customAttribute hrow =>
    unfold addAttribute at hrow
    split_ifs at hrow
    cases hrow
    exact .of_appended (List.prefix_refl _) (List.prefix_refl _)
  | memberRef hrow | locals hrow | typeSpec hrow | methodSpec hrow | userString hrow | document hrow =>
    cases hrow
    exact .of_appended (List.prefix_refl _) (List.prefix_refl _)
  | failed => exact .refl module

theorem keepsTypes_performAll (additions : List Addition) (module : Module) :
    KeepsTypes module (performAll additions module) := by
  induction additions generalizing module with
  | nil => exact .refl module
  | cons addition additions ih => exact (keepsTypes_perform addition module).trans (ih _)

end Addition

section Outcomes

variable {module : Module} {token last : Token} {inner : List String}

theorem fullName_of_atTop {name : TypeName} {assembly : Option String} (hwalk : module.Walk token inner last)
    (hl : inner.length ≤ levelLimit) (htop : module.AtTop last name assembly) :
    module.fullName token = .ok ("/".intercalate (name.text :: inner)) := by
  have hname := hwalk.nestedName (levelLimit - inner.length + 1)
  rw [htop.nestedName, show levelLimit - inner.length + 1 + inner.length = levelLimit + 1 by omega] at hname
  rw [fullName, hname, ← NestedName.text_eq_intercalate "/" name inner assembly]
  rfl

theorem fullName_of_noType (hwalk : module.Walk token inner last) (hl : inner.length ≤ levelLimit)
    (hnone : module.NoType last) : module.fullName token = .error (.tokenNotFound last) := by
  have hname := hwalk.nestedName (levelLimit - inner.length + 1)
  rw [hnone.nestedName, show levelLimit - inner.length + 1 + inner.length = levelLimit + 1 by omega] at hname
  rw [fullName, hname]
  rfl

theorem fullName_of_long (hwalk : module.Walk token inner last) (hl : levelLimit < inner.length) :
    module.fullName token = .error (.recursionLimit levelLimit) := by
  rw [fullName, hwalk.nestedName_eq_error hl]
  rfl

/-- There is no fourth way for a walk to go. -/
theorem fullName_cases (module : Module) (token : Token) :
    (∃ inner last name assembly, module.Walk token inner last ∧ inner.length ≤ levelLimit ∧
        module.AtTop last name assembly) ∨
      (∃ inner last, module.Walk token inner last ∧ inner.length ≤ levelLimit ∧ module.NoType last) ∨
      ∃ inner last, module.Walk token inner last ∧ levelLimit < inner.length := by
  rcases module.walk_cases token levelLimit with
    ⟨inner, last, hwalk, hl, ⟨name, assembly, htop⟩ | hnone⟩ | ⟨inner, last, hwalk, hl⟩
  · exact .inl ⟨inner, last, name, assembly, hwalk, hl, htop⟩
  · exact .inr (.inl ⟨inner, last, hwalk, hl, hnone⟩)
  · exact .inr (.inr ⟨inner, last, hwalk, by omega⟩)

theorem fullName_eq_ok {text : String} : module.fullName token = .ok text ↔
    ∃ inner last name assembly, module.Walk token inner last ∧ inner.length ≤ levelLimit ∧
      module.AtTop last name assembly ∧ text = "/".intercalate (name.text :: inner) := by
  constructor
  · intro h
    rcases module.fullName_cases token with
      ⟨inner, last, name, assembly, hwalk, hl, htop⟩ | ⟨inner, last, hwalk, hl, hnone⟩ | ⟨inner, last, hwalk, hl⟩
    · rw [fullName_of_atTop hwalk hl htop] at h
      cases h
      exact ⟨inner, last, name, assembly, hwalk, hl, htop, rfl⟩
    · rw [fullName_of_noType hwalk hl hnone] at h
      cases h
    · rw [fullName_of_long hwalk hl] at h
      cases h
  · rintro ⟨inner, last, name, assembly, hwalk, hl, htop, rfl⟩
    exact fullName_of_atTop hwalk hl htop

theorem fullName_eq_error {error : Error} : module.fullName token = .error error ↔
    (∃ inner last, module.Walk token inner last ∧ inner.length ≤ levelLimit ∧ module.NoType last ∧
        error = .tokenNotFound last) ∨
      (∃ inner last, module.Walk token inner last ∧ levelLimit < inner.length) ∧
        error = .recursionLimit levelLimit := by
  constructor
  · intro h
    rcases module.fullName_cases token with
      ⟨inner, last, name, assembly, hwalk, hl, htop⟩ | ⟨inner, last, hwalk, hl, hnone⟩ | ⟨inner, last, hwalk, hl⟩
    · rw [fullName_of_atTop hwalk hl htop] at h
      cases h
    · rw [fullName_of_noType hwalk hl hnone] at h
      cases h
      exact .inl ⟨inner, last, hwalk, hl, hnone, rfl⟩
    · rw [fullName_of_long hwalk hl] at h
      cases h
      exact .inr ⟨⟨inner, last, hwalk, hl⟩, rfl⟩
  · rintro (⟨inner, last, hwalk, hl, hnone, rfl⟩ | ⟨⟨inner, last, hwalk, hl⟩, rfl⟩)
    · exact fullName_of_noType hwalk hl hnone
    · exact fullName_of_long hwalk hl

end Outcomes

/-- The full name of a token is found exactly if the walk outwards comes to a type at the top within
fifty steps, and lists the types on the way. Otherwise the error is the token that names no type, or the
bound that the walk exceeds. A name does not change when the module grows. -/
theorem fullName_exact (module : Module) (token : Token) :
    (∀ text, module.fullName token = .ok text ↔
      ∃ inner last name assembly, module.Walk token inner last ∧ inner.length ≤ 50 ∧
        module.AtTop last name assembly ∧
        text = "/".intercalate
          ((if name.space = "" then name.simple else name.space ++ "." ++ name.simple) :: inner)) ∧
      (∀ missing, module.fullName token = .error (.tokenNotFound missing) ↔
        ∃ inner, module.Walk token inner missing ∧ inner.length ≤ 50 ∧ module.NoType missing) ∧
      (module.fullName token = .error (.recursionLimit 50) ↔
        ∃ inner last, module.Walk token inner last ∧ 50 < inner.length) ∧
      (∀ error, module.fullName token = .error error →
        error = .recursionLimit 50 ∨ ∃ missing, error = .tokenNotFound missing) ∧
      ∀ text, module.fullName token = .ok text →
        (∀ additions, (Addition.performAll additions module).fullName token = .ok text) ∧
          ∀ after : Module, module.typeRefs.toList <+: after.typeRefs.toList →
            module.typeDefs.toList <+: after.typeDefs.toList → after.fullName token = .ok text := by
  refine ⟨fun text => fullName_eq_ok, fun missing => ?_, ?_, fun error h => ?_, fun text h => ⟨fun additions => ?_,
    fun after href hdef => ?_⟩⟩
  · rw [fullName_eq_error]
    constructor
    · rintro (⟨inner, last, hwalk, hl, hnone, he⟩ | ⟨-, he⟩)
      · cases he
        exact ⟨inner, hwalk, hl, hnone⟩
      · cases he
    · rintro ⟨inner, hwalk, hl, hnone⟩
      exact .inl ⟨inner, missing, hwalk, hl, hnone, rfl⟩
  · rw [fullName_eq_error]
    constructor
    · rintro (⟨_, _, -, -, -, he⟩ | ⟨hlong, -⟩)
      · cases he
      · exact hlong
    · exact fun hlong => .inr ⟨hlong, rfl⟩
  · rcases fullName_eq_error.mp h with ⟨_, last, -, -, -, rfl⟩ | ⟨-, rfl⟩
    · exact .inr ⟨last, rfl⟩
    · exact .inl rfl
  · exact (Addition.keepsTypes_performAll additions module).fullName h
  · exact (KeepsTypes.of_appended href hdef).fullName h

/-- A type in a type, a reference inside a definition, and two types inside each other. -/
def tangled : Module where
  name := "Patch"
  typeRefs := #[⟨.nested (.ofRow .typeDef 2), ⟨"System", "Enumerator"⟩⟩]
  typeDefs := #[{ name := ⟨"App", "Outer"⟩ }, { name := ⟨"", "Inner"⟩, enclosing := some (.ofRow .typeDef 1) },
    { name := ⟨"", "Left"⟩, enclosing := some (.ofRow .typeDef 4) },
    { name := ⟨"", "Right"⟩, enclosing := some (.ofRow .typeDef 3) }]

theorem fullName_exact_tangled :
    (Addition.performAll Addition.nestedTypes tangled).fullName (.ofRow .typeRef 1) =
        .ok "App.Outer/Inner/Enumerator" ∧
      ∃ inner last, tangled.Walk (.ofRow .typeDef 3) inner last ∧ 50 < inner.length := by
  obtain ⟨-, -, -, -, hkeeps⟩ := fullName_exact tangled (.ofRow .typeRef 1)
  obtain ⟨-, -, hlong, -⟩ := fullName_exact tangled (.ofRow .typeDef 3)
  have hname : tangled.fullName (.ofRow .typeRef 1) = .ok "App.Outer/Inner/Enumerator" := by rfl
  exact ⟨(hkeeps _ hname).1 Addition.nestedTypes, hlong.mp (by rfl)⟩

end HotPatch.Module
