import HotPatch.Proofs.Module.Tables
import HotPatch.Proofs.Results

/-!
# Walking out of nested types

A name is found on a walk from a type to the type around it, through
definitions and references alike, until a type stands at the top or a token
names no type. Nothing keeps the tokens of a module from leading in circles, so
the walk may also go on for good. The name depends on the walk alone, and a
module that kept its types has all the walks that it had before.
-/

namespace HotPatch

/-- A nested name lists the levels behind the name at the top. -/
theorem NestedName.text_eq_intercalate (separator : String) (outer : TypeName) (inner : List String)
    (assembly : Option String) :
    NestedName.text separator { outer, inner, assembly } = separator.intercalate (outer.text :: inner) := by
  induction inner using List.reverseRecOn with
  | nil => simp [NestedName.text]
  | append_singleton inner level ih =>
    rw [← List.cons_append, String.intercalate_append_of_ne_nil (by simp) (by simp), ← ih]
    exact NestedName.text_nest { outer, inner, assembly } separator level

namespace Module

section Walks

variable {module : Module} {token outer last : Token} {levels : Nat} {simple : String} {inner : List String}

/-- The token names a type of the given simple name inside another type. -/
inductive Inside (module : Module) (token : Token) : String → Token → Prop where
  | definition {type : TypeDef} {outer : Token} (found : module.typeDef? token = some type)
    (around : type.enclosing = some outer) : Inside module token type.name.simple outer
  | reference {type : TypeRef} {outer : Token} (found : module.typeRef? token = some type)
    (around : type.scope = .nested outer) : Inside module token type.name.simple outer

/-- The token names a type at the top, in the module itself or in an assembly. -/
inductive AtTop (module : Module) (token : Token) : TypeName → Option String → Prop where
  | definition {type : TypeDef} (found : module.typeDef? token = some type) (alone : type.enclosing = none) :
    AtTop module token type.name none
  | reference {type : TypeRef} {assembly : String} (found : module.typeRef? token = some type)
    (alone : type.scope = .assembly assembly) : AtTop module token type.name (some assembly)

/-- The token names no type. -/
structure NoType (module : Module) (token : Token) : Prop where
  typeDef : module.typeDef? token = none
  typeRef : module.typeRef? token = none

/-- A walk outwards, with the names of the types that it leaves, from the outside in. -/
inductive Walk (module : Module) : Token → List String → Token → Prop where
  | here (token : Token) : Walk module token [] token
  | outwards {token outer last : Token} {simple : String} {inner : List String}
    (step : Inside module token simple outer) (rest : Walk module outer inner last) :
    Walk module token (inner ++ [simple]) last

theorem typeDef?_of_typeRef? {type : TypeRef} (h : module.typeRef? token = some type) :
    module.typeDef? token = none :=
  rowAt?_of_other h (by decide)

theorem level_cases (module : Module) (token : Token) :
    (∃ simple outer, module.Inside token simple outer) ∨ (∃ name assembly, module.AtTop token name assembly) ∨
      module.NoType token := by
  rcases hdef : module.typeDef? token with - | type
  · rcases href : module.typeRef? token with - | type
    · exact .inr (.inr ⟨hdef, href⟩)
    · rcases hscope : type.scope with assembly | outer
      · exact .inr (.inl ⟨_, _, .reference href hscope⟩)
      · exact .inl ⟨_, _, .reference href hscope⟩
  · rcases henclosing : type.enclosing with - | outer
    · exact .inr (.inl ⟨_, _, .definition hdef henclosing⟩)
    · exact .inl ⟨_, _, .definition hdef henclosing⟩

theorem Inside.nestedName (h : module.Inside token simple outer) (levels : Nat) :
    module.nestedName (levels + 1) token = (·.nest simple) <$> module.nestedName levels outer := by
  cases h with
  | definition found around => simp only [Module.nestedName, found, around, bind_pure_comp]
  | reference found around =>
    simp only [Module.nestedName, typeDef?_of_typeRef? found, found, around, bind_pure_comp]

theorem AtTop.nestedName {name : TypeName} {assembly : Option String} (h : module.AtTop token name assembly)
    (levels : Nat) : module.nestedName (levels + 1) token = .ok { outer := name, assembly } := by
  cases h with
  | definition found alone => simp only [Module.nestedName, found, alone]
  | reference found alone => simp only [Module.nestedName, typeDef?_of_typeRef? found, found, alone]

theorem NoType.nestedName (h : module.NoType token) (levels : Nat) :
    module.nestedName (levels + 1) token = .error (.tokenNotFound token) := by
  rw [Module.nestedName, h.typeDef, h.typeRef]

/-- A walk takes one level for each step and puts the types that it left inside the name at its end. -/
theorem Walk.nestedName (h : module.Walk token inner last) (levels : Nat) :
    module.nestedName (levels + inner.length) token =
      (fun name => { name with inner := name.inner ++ inner }) <$> module.nestedName levels last := by
  induction h with
  | here token => simp
  | @outwards token outer last simple inner step rest ih =>
    rw [List.length_append, List.length_singleton, ← Nat.add_assoc, step.nestedName, ih]
    simp [NestedName.nest]

/-- A walk that is longer than the bound has no name at its end. -/
theorem Walk.nestedName_eq_error (h : module.Walk token inner last) (hl : levels ≤ inner.length) :
    module.nestedName levels token = .error (.recursionLimit levelLimit) := by
  induction h generalizing levels with
  | here token =>
    obtain rfl : levels = 0 := by simpa using hl
    rfl
  | outwards step rest ih =>
    cases levels with
    | zero => rfl
    | succ levels =>
      rw [step.nestedName, ih (by simpa using hl), Except.map_error]

/-- Within a number of steps, a walk comes to its end or goes on. -/
theorem walk_cases (module : Module) (token : Token) (steps : Nat) :
    (∃ inner last, module.Walk token inner last ∧ inner.length ≤ steps ∧
      ((∃ name assembly, module.AtTop last name assembly) ∨ module.NoType last)) ∨
      ∃ inner last, module.Walk token inner last ∧ inner.length = steps + 1 := by
  induction steps generalizing token with
  | zero =>
    rcases module.level_cases token with ⟨simple, outer, step⟩ | hend
    · exact .inr ⟨_, outer, .outwards step (.here outer), rfl⟩
    · exact .inl ⟨[], token, .here token, le_rfl, hend⟩
  | succ steps ih =>
    rcases module.level_cases token with ⟨simple, outer, step⟩ | hend
    · rcases ih outer with ⟨inner, last, rest, hl, hend⟩ | ⟨inner, last, rest, hl⟩
      · exact .inl ⟨_, last, .outwards step rest, by simpa using hl, hend⟩
      · exact .inr ⟨_, last, .outwards step rest, by simpa using hl⟩
    · exact .inl ⟨[], token, .here token, Nat.zero_le _, hend⟩

end Walks

/-- Types kept their rows, apart from their lists of members. -/
structure KeepsTypes (before after : Module) : Prop where
  typeRef : ∀ token row, before.typeRef? token = some row → after.typeRef? token = some row
  typeDef : ∀ token row, before.typeDef? token = some row →
    ∃ fields methods, after.typeDef? token = some { row with fields, methods }

section Kept

variable {a b c : Module} {token outer last : Token} {simple : String} {inner : List String}

theorem KeepsTypes.refl (a : Module) : KeepsTypes a a := ⟨fun _ _ => id, fun _ row h => ⟨row.fields, row.methods, h⟩⟩

theorem KeepsTypes.trans (h : KeepsTypes a b) (h' : KeepsTypes b c) : KeepsTypes a c where
  typeRef token row hr := h'.typeRef token row (h.typeRef token row hr)
  typeDef token row hr := by
    obtain ⟨fields, methods, hb⟩ := h.typeDef token row hr
    obtain ⟨fields, methods, hc⟩ := h'.typeDef token _ hb
    exact ⟨fields, methods, hc⟩

/-- Rows that were appended leave the others in their places. -/
theorem KeepsTypes.of_appended (href : a.typeRefs.toList <+: b.typeRefs.toList)
    (hdef : a.typeDefs.toList <+: b.typeDefs.toList) : KeepsTypes a b where
  typeRef _ _ hr := rowAt?_mono href hr
  typeDef _ row hr := ⟨row.fields, row.methods, rowAt?_mono hdef hr⟩

theorem Inside.mono (h : a.Inside token simple outer) (hk : KeepsTypes a b) : b.Inside token simple outer := by
  cases h with
  | @definition type _ found around =>
    obtain ⟨fields, methods, hb⟩ := hk.typeDef _ _ found
    exact @Inside.definition b token { type with fields, methods } outer hb around
  | reference found around => exact .reference (hk.typeRef _ _ found) around

theorem AtTop.mono {name : TypeName} {assembly : Option String} (h : a.AtTop token name assembly)
    (hk : KeepsTypes a b) : b.AtTop token name assembly := by
  cases h with
  | @definition type found alone =>
    obtain ⟨fields, methods, hb⟩ := hk.typeDef _ _ found
    exact @AtTop.definition b token { type with fields, methods } hb alone
  | reference found alone => exact .reference (hk.typeRef _ _ found) alone

/-- What has a name keeps it. -/
theorem KeepsTypes.nestedName (hk : KeepsTypes a b) {levels : Nat} {name : NestedName}
    (h : a.nestedName levels token = .ok name) : b.nestedName levels token = .ok name := by
  induction levels generalizing token name with
  | zero => cases h
  | succ levels ih =>
    rcases a.level_cases token with ⟨simple, outer, step⟩ | ⟨_, _, top⟩ | missing
    · rw [step.nestedName] at h
      obtain ⟨around, ho, hn⟩ := map_eq_ok.mp h
      rw [(step.mono hk).nestedName]
      exact map_eq_ok.mpr ⟨around, ih ho, hn⟩
    · rw [top.nestedName] at h
      rw [(top.mono hk).nestedName]
      exact h
    · rw [missing.nestedName] at h
      cases h

theorem KeepsTypes.fullName (hk : KeepsTypes a b) {name : String} (h : a.fullName token = .ok name) :
    b.fullName token = .ok name := by
  obtain ⟨nested, hl, ht⟩ := bind_eq_ok.mp h
  exact bind_eq_ok.mpr ⟨nested, hk.nestedName hl, ht⟩

end Kept
end Module
end HotPatch
