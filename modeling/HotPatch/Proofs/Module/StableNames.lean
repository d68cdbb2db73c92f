import HotPatch.Proofs.Module.Built
import HotPatch.Proofs.Module.NestedNames

/-!
# Names in an extended module

What has a name keeps it when the module is extended. The names of type
definitions do not even come into being, so that searching for a type by its
name gives the same result before and after.
-/

namespace HotPatch.Module

/-- If the token has no full name, then not because the name breaks off at a type reference that is missing. -/
def NameSettled (module : Module) (token : Token) : Prop :=
  ∀ missing, module.fullName token = .error (.tokenNotFound missing) → ¬missing.isIn .typeRef

variable {a b : Module} {container : Option Token} {wrappers : List Token} {p : Token → Prop}

namespace Extension

theorem typeDef?_eq_none (h : Extension container wrappers p a b) {token : Token}
    (ht : a.typeDef? token = none) : b.typeDef? token = none := by
  rw [h.typeDef, ht, Option.map_none]

/-- Apart from the list of its methods, a type definition stays as it is. -/
theorem typeDef?_eq_some (h : Extension container wrappers p a b) {token : Token} {type : TypeDef}
    (ht : a.typeDef? token = some type) :
    ∃ methods, b.typeDef? token = some { type with methods := type.methods ++ methods } ∧
      (container = some token ∧ methods = wrappers ∨ container ≠ some token ∧ methods = []) := by
  rw [h.typeDef, ht, Option.map_some]
  by_cases hc : container = some token
  · exact ⟨wrappers, by rw [if_pos hc], .inl ⟨hc, rfl⟩⟩
  · exact ⟨[], by rw [if_neg hc, List.append_nil], .inr ⟨hc, rfl⟩⟩

theorem keepsTypes (h : Extension container wrappers p a b) : KeepsTypes a b where
  typeRef _ _ hr := h.toKeepsReferences.typeRef? hr
  typeDef _ type ht := by
    obtain ⟨methods, hb, -⟩ := h.typeDef?_eq_some ht
    exact ⟨type.fields, type.methods ++ methods, hb⟩

theorem nestedName (h : Extension container wrappers p a b) {levels : Nat} {token : Token}
    {name : NestedName} (hn : a.nestedName levels token = .ok name) : b.nestedName levels token = .ok name :=
  h.keepsTypes.nestedName hn

theorem fullName (h : Extension container wrappers p a b) {token : Token} {name : String}
    (hn : a.fullName token = .ok name) : b.fullName token = .ok name :=
  h.keepsTypes.fullName hn

/-- The levels around a type definition are definitions too. -/
theorem nestedName_typeDef (h : Extension container wrappers p a b) (hw : a.WellFormed) {levels : Nat}
    {token : Token} (ht : (a.typeDef? token).isSome) :
    b.nestedName levels token = a.nestedName levels token := by
  induction levels generalizing token with
  | zero => rfl
  | succ levels ih =>
    rcases a.level_cases token with ⟨simple, outer, step⟩ | ⟨_, _, top⟩ | missing
    · rw [step.nestedName, (step.mono h.keepsTypes).nestedName]
      cases step with
      | definition found around => rw [ih (hw.enclosing token _ outer found around)]
      | reference found =>
        rw [typeDef?_of_typeRef? found] at ht
        cases ht
    · rw [top.nestedName, (top.mono h.keepsTypes).nestedName]
    · rw [missing.typeDef] at ht
      cases ht

theorem fullName_typeDef (h : Extension container wrappers p a b) (hw : a.WellFormed) {token : Token}
    (ht : (a.typeDef? token).isSome) : b.fullName token = a.fullName token := by
  rw [Module.fullName, Module.fullName, h.nestedName_typeDef hw ht]

/-- Where a name does not break off at a missing type reference, it does not come into being either. -/
theorem nestedName_settled (h : Extension container wrappers p a b) {levels : Nat} {token : Token}
    (hs : ∀ missing, a.nestedName levels token = .error (.tokenNotFound missing) → ¬missing.isIn .typeRef) :
    b.nestedName levels token = a.nestedName levels token := by
  induction levels generalizing token with
  | zero => rfl
  | succ levels ih =>
    rcases a.level_cases token with ⟨simple, outer, step⟩ | ⟨_, _, top⟩ | missing
    · rw [step.nestedName, (step.mono h.keepsTypes).nestedName, ih]
      intro missing hm
      exact hs missing (by rw [step.nestedName, hm]; rfl)
    · rw [top.nestedName, (top.mono h.keepsTypes).nestedName]
    · have hnone : b.typeRef? token = none := rowAt?_of_not_isIn (hs token (missing.nestedName levels))
      have hmissing : b.NoType token := ⟨h.typeDef?_eq_none missing.typeDef, hnone⟩
      rw [missing.nestedName, hmissing.nestedName]

theorem fullName_settled (h : Extension container wrappers p a b) {token : Token} (hs : a.NameSettled token) :
    b.fullName token = a.fullName token := by
  have hnested : b.nestedName (levelLimit + 1) token = a.nestedName (levelLimit + 1) token := by
    refine h.nestedName_settled fun missing hm => hs missing ?_
    rw [Module.fullName, hm]
    rfl
  rw [Module.fullName, Module.fullName, hnested]

theorem typeDefTokens (h : Extension container wrappers p a b) : b.typeDefTokens = a.typeDefTokens := by
  rw [Module.typeDefTokens, Module.typeDefTokens, tokens, tokens, rowCount, rowCount, h.typeDefCount]

end Extension

theorem typeDef?_of_mem_tokens (hf : a.RowsFit) {token : Token} (ht : token ∈ a.typeDefTokens) :
    (a.typeDef? token).isSome := by
  obtain ⟨index, hi, rfl⟩ := List.mem_map.mp ht
  rw [typeDef?, rowAt?_isSome (List.mem_range.mp hi) (hf .typeDef)]
  rfl

theorem typeDef?_of_findType? (hf : a.RowsFit) {name : String} {token : Token}
    (h : a.findType? name = some token) : (a.typeDef? token).isSome :=
  typeDef?_of_mem_tokens hf (List.mem_of_find?_eq_some h)

namespace Extension

/-- A type is found under a name if and only if it was found before. -/
theorem findType? (h : Extension container wrappers p a b) (hw : a.WellFormed) (hf : a.RowsFit)
    (name : String) : b.findType? name = a.findType? name := by
  rw [Module.findType?, Module.findType?, h.typeDefTokens]
  refine List.find?_congr fun token ht => ?_
  rw [h.fullName_typeDef hw (typeDef?_of_mem_tokens hf ht)]

theorem methodName (h : Extension container wrappers p a b) {token : Token}
    (ht : (a.method? token).isSome) (name : String) :
    (b.method? token).any (·.name == name) = (a.method? token).any (·.name == name) := by
  obtain ⟨row, hr⟩ := Option.isSome_iff_exists.mp ht
  obtain ⟨body, hb, -⟩ := h.method token row hr
  rw [hb, hr]
  rfl

theorem listedNames (h : Extension container wrappers p a b) (hw : a.WellFormed) {owner : Token}
    {type : TypeDef} (ht : a.typeDef? owner = some type) (name : String) :
    (type.methods.find? fun method => (b.method? method).any (·.name == name)) =
      type.methods.find? fun method => (a.method? method).any (·.name == name) := by
  refine List.find?_congr fun method hm => ?_
  obtain ⟨row, hr, -⟩ := hw.listed owner type method ht hm
  exact h.methodName (Option.isSome_iff_exists.mpr ⟨row, hr⟩) name

/-- The first method of a name stays the first one. -/
theorem findMethod? (h : Extension container wrappers p a b) (hw : a.WellFormed) {owner method : Token}
    {name : String} (hm : a.findMethod? owner name = some method) :
    b.findMethod? owner name = some method := by
  unfold Module.findMethod? at hm ⊢
  rcases ht : a.typeDef? owner with - | type <;> rw [ht] at hm
  · cases hm
  · obtain ⟨methods, hb, -⟩ := h.typeDef?_eq_some ht
    rw [hb]
    change List.find? _ (type.methods ++ methods) = _
    rw [List.find?_append, h.listedNames hw ht]
    change List.find? _ type.methods = _ at hm
    rw [hm, Option.some_or]

/-- A method that is found under a name was found before, or is new. -/
theorem findMethod?_cases (h : Extension container wrappers p a b) (hw : a.WellFormed)
    {owner method : Token} {name : String} (hm : b.findMethod? owner name = some method) :
    a.findMethod? owner name = some method ∨ method ∈ wrappers := by
  unfold Module.findMethod? at hm ⊢
  rcases ht : a.typeDef? owner with - | type
  · rw [h.typeDef?_eq_none ht] at hm
    cases hm
  · obtain ⟨methods, hb, hmethods⟩ := h.typeDef?_eq_some ht
    rw [hb] at hm
    change List.find? _ (type.methods ++ methods) = _ at hm
    rw [List.find?_append, h.listedNames hw ht] at hm
    rcases Option.or_eq_some_iff.mp hm with hm | ⟨-, hm⟩
    · exact .inl hm
    · rcases hmethods with ⟨-, rfl⟩ | ⟨-, rfl⟩
      · exact .inr (List.mem_of_find?_eq_some hm)
      · cases hm

theorem qualifiedName (h : Extension container wrappers p a b) {levels : Nat} {sig : TypeSig}
    {name : QualifiedName} (hn : a.qualifiedName levels sig = .ok name) :
    b.qualifiedName levels sig = .ok name := by
  induction levels generalizing sig name with
  | zero => cases hn
  | succ levels ih =>
    have hnamed : ∀ {token : Token} {name : QualifiedName},
        (if token.isIn .typeSpec then do
            let spec ← require (a.typeSpec? token) token
            a.qualifiedName levels spec.sig
          else do
            let name ← a.nestedName levels token
            return ⟨name.text "+", qualifier name⟩) = .ok name →
        (if token.isIn .typeSpec then do
            let spec ← require (b.typeSpec? token) token
            b.qualifiedName levels spec.sig
          else do
            let name ← b.nestedName levels token
            return ⟨name.text "+", qualifier name⟩) = .ok name := by
      intro token name hn
      split_ifs at hn ⊢ with hs
      · obtain ⟨spec, hr, hq⟩ := bind_eq_ok.mp hn
        rw [require_eq_ok] at hr
        exact bind_eq_ok.mpr ⟨spec, require_eq_ok.mpr (h.toKeepsReferences.typeSpec? hr), ih hq⟩
      · obtain ⟨nested, hl, hq⟩ := bind_eq_ok.mp hn
        exact bind_eq_ok.mpr ⟨nested, h.nestedName hl, hq⟩
    unfold Module.qualifiedName at hn ⊢
    cases sig with
    | primitive type => exact hn
    | «class» token => exact hnamed hn
    | valueType token => exact hnamed hn
    | typeParam index => cases hn
    | methodParam index => cases hn
    | generic base args =>
      obtain ⟨outer, hb, hn⟩ := bind_eq_ok.mp hn
      obtain ⟨texts, ha, hn⟩ := bind_eq_ok.mp hn
      refine bind_eq_ok.mpr ⟨outer, ih hb, bind_eq_ok.mpr ⟨texts, ?_, hn⟩⟩
      refine mapM_ok_mono (fun arg _ text ht => ?_) ha
      obtain ⟨name, hq, ht⟩ := bind_eq_ok.mp ht
      exact bind_eq_ok.mpr ⟨name, ih hq, ht⟩
    | vector element =>
      obtain ⟨inner, he, hn⟩ := bind_eq_ok.mp hn
      exact bind_eq_ok.mpr ⟨inner, ih he, hn⟩
    | byRef target =>
      obtain ⟨inner, ht, hn⟩ := bind_eq_ok.mp hn
      exact bind_eq_ok.mpr ⟨inner, ih ht, hn⟩

theorem reflectionName (h : Extension container wrappers p a b) {sig : TypeSig} {name : String}
    (hn : a.reflectionName sig = .ok name) : b.reflectionName sig = .ok name := by
  obtain ⟨qualified, hq, ht⟩ := bind_eq_ok.mp hn
  exact bind_eq_ok.mpr ⟨qualified, h.qualifiedName hq, ht⟩

end Extension
end HotPatch.Module
