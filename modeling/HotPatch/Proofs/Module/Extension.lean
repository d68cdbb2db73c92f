import HotPatch.Proofs.Module.Tables

/-!
# How a module is extended

Two relations between a module and what becomes of it. Adding references leaves
all definitions alone. An extension may also add attributes, replace method
bodies, and append methods to one type, the container. Whatever a token named
before, it names in the extension.
-/

namespace HotPatch.Module

/-- References and specifications kept their rows. -/
structure KeepsReferences (before after : Module) : Prop where
  typeRefs : before.typeRefs.toList <+: after.typeRefs.toList
  memberRefs : before.memberRefs.toList <+: after.memberRefs.toList
  typeSpecs : before.typeSpecs.toList <+: after.typeSpecs.toList
  methodSpecs : before.methodSpecs.toList <+: after.methodSpecs.toList

/-- Only references and specifications were added. -/
structure AddsReferences (before after : Module) : Prop extends KeepsReferences before after where
  same : after = { before with
    typeRefs := after.typeRefs, memberRefs := after.memberRefs, typeSpecs := after.typeSpecs,
    methodSpecs := after.methodSpecs }

/-- The container got new methods, some bodies were replaced, and the other rows were left alone or
came behind those that were there. -/
structure Extension (container : Option Token) (wrappers : List Token) (rewritten : Token → Prop)
    (before after : Module) : Prop extends KeepsReferences before after where
  name : after.name = before.name
  versionId : after.versionId = before.versionId
  documents : after.documents = before.documents
  userStrings : after.userStrings = before.userStrings
  fields : after.fields = before.fields
  locals : after.locals = before.locals
  attributes : before.attributes.toList <+: after.attributes.toList
  typeDefCount : after.typeDefs.size = before.typeDefs.size
  typeDef : ∀ token, after.typeDef? token = (before.typeDef? token).map fun type =>
    if container = some token then { type with methods := type.methods ++ wrappers } else type
  methodCount : after.methods.size = before.methods.size + wrappers.length
  newMethods : wrappers =
    (List.range' (before.methods.size + 1) wrappers.length).map (.ofRow .methodDef)
  method : ∀ token row, before.method? token = some row →
    ∃ body, after.method? token = some { row with body } ∧ (body ≠ row.body → rewritten token)

namespace KeepsReferences

variable {a b c : Module}

theorem refl (a : Module) : KeepsReferences a a :=
  ⟨List.prefix_refl _, List.prefix_refl _, List.prefix_refl _, List.prefix_refl _⟩

theorem of_eq (ht : b.typeRefs = a.typeRefs) (hm : b.memberRefs = a.memberRefs)
    (hs : b.typeSpecs = a.typeSpecs) (hi : b.methodSpecs = a.methodSpecs) : KeepsReferences a b :=
  ⟨by rw [ht], by rw [hm], by rw [hs], by rw [hi]⟩

theorem trans (h : KeepsReferences a b) (h' : KeepsReferences b c) : KeepsReferences a c where
  typeRefs := h.typeRefs.trans h'.typeRefs
  memberRefs := h.memberRefs.trans h'.memberRefs
  typeSpecs := h.typeSpecs.trans h'.typeSpecs
  methodSpecs := h.methodSpecs.trans h'.methodSpecs

theorem typeRef? (h : KeepsReferences a b) {token : Token} {row : TypeRef}
    (hr : a.typeRef? token = some row) : b.typeRef? token = some row :=
  rowAt?_mono h.typeRefs hr

theorem memberRef? (h : KeepsReferences a b) {token : Token} {row : MemberRef}
    (hr : a.memberRef? token = some row) : b.memberRef? token = some row :=
  rowAt?_mono h.memberRefs hr

theorem typeSpec? (h : KeepsReferences a b) {token : Token} {row : TypeSpec}
    (hr : a.typeSpec? token = some row) : b.typeSpec? token = some row :=
  rowAt?_mono h.typeSpecs hr

theorem methodSpec? (h : KeepsReferences a b) {token : Token} {row : MethodSpec}
    (hr : a.methodSpec? token = some row) : b.methodSpec? token = some row :=
  rowAt?_mono h.methodSpecs hr

end KeepsReferences

namespace AddsReferences

variable {a b c : Module}

theorem refl (a : Module) : AddsReferences a a := ⟨.refl a, rfl⟩

theorem trans (h : AddsReferences a b) (h' : AddsReferences b c) : AddsReferences a c where
  toKeepsReferences := h.toKeepsReferences.trans h'.toKeepsReferences
  same := by
    have hc := h'.same
    rw [h.same] at hc
    exact hc

theorem name_eq (h : AddsReferences a b) : b.name = a.name := by rw [h.same]

theorem typeDefs_eq (h : AddsReferences a b) : b.typeDefs = a.typeDefs := by rw [h.same]

theorem methods_eq (h : AddsReferences a b) : b.methods = a.methods := by rw [h.same]

theorem attributes_eq (h : AddsReferences a b) : b.attributes = a.attributes :=
  by rw [h.same]

theorem typeDef?_eq (h : AddsReferences a b) (token : Token) : b.typeDef? token = a.typeDef? token := by
  rw [typeDef?, typeDef?, h.typeDefs_eq]

theorem method?_eq (h : AddsReferences a b) (token : Token) : b.method? token = a.method? token := by
  rw [method?, method?, h.methods_eq]

theorem extension (h : AddsReferences a b) (container : Option Token) :
    Extension container [] (fun _ => False) a b where
  name := h.name_eq
  versionId := by rw [h.same]
  documents := by rw [h.same]
  userStrings := by rw [h.same]
  fields := by rw [h.same]
  locals := by rw [h.same]
  toKeepsReferences := h.toKeepsReferences
  attributes := by rw [h.attributes_eq]
  typeDefCount := by rw [h.typeDefs_eq]
  typeDef token := by
    rw [h.typeDef?_eq]
    cases a.typeDef? token <;> simp
  methodCount := by rw [h.methods_eq]; rfl
  newMethods := rfl
  method token row hr := ⟨row.body, by rw [h.method?_eq, hr], fun hne => absurd rfl hne⟩

end AddsReferences

section Adding

variable (module : Module)

theorem addTypeRef_adds (row : TypeRef) : module.AddsReferences (module.addTypeRef row).2 where
  same := rfl
  typeRefs := (shareRow_spec module.typeRefs row).grows
  memberRefs := List.prefix_refl _
  typeSpecs := List.prefix_refl _
  methodSpecs := List.prefix_refl _

theorem addMemberRef_adds (row : MemberRef) : module.AddsReferences (module.addMemberRef row).2 where
  same := rfl
  typeRefs := List.prefix_refl _
  memberRefs := (shareRow_spec module.memberRefs row).grows
  typeSpecs := List.prefix_refl _
  methodSpecs := List.prefix_refl _

theorem addTypeSpec_adds (sig : TypeSig) : module.AddsReferences (module.addTypeSpec sig).2 where
  same := rfl
  typeRefs := List.prefix_refl _
  memberRefs := List.prefix_refl _
  typeSpecs := (shareRow_spec module.typeSpecs ⟨sig⟩).grows
  methodSpecs := List.prefix_refl _

theorem addMethodSpec_adds (row : MethodSpec) : module.AddsReferences (module.addMethodSpec row).2 where
  same := rfl
  typeRefs := List.prefix_refl _
  memberRefs := List.prefix_refl _
  typeSpecs := List.prefix_refl _
  methodSpecs := (shareRow_spec module.methodSpecs row).grows

end Adding

namespace Extension

variable {a b c : Module} {container : Option Token} {wrappers more : List Token} {p q : Token → Prop}

theorem refl (container : Option Token) (a : Module) : Extension container [] (fun _ => False) a a :=
  (AddsReferences.refl a).extension container

/-- Adding attributes extends a module. -/
theorem of_attributes (container : Option Token) (h : b = { a with attributes := b.attributes })
    (hattributes : a.attributes.toList <+: b.attributes.toList) :
    Extension container [] (fun _ => False) a b := by
  constructor
  case attributes => exact hattributes
  case newMethods => rfl
  case typeDef =>
    intro token
    rw [typeDef?, show b.typeDefs = a.typeDefs by rw [h], ← typeDef?]
    cases a.typeDef? token <;> simp
  case method =>
    intro token row hr
    refine ⟨row.body, ?_, fun hne => absurd rfl hne⟩
    rw [method?, show b.methods = a.methods by rw [h], ← method?, hr]
  case methodCount => rw [h]; rfl
  case toKeepsReferences => exact .of_eq (by rw [h]) (by rw [h]) (by rw [h]) (by rw [h])
  all_goals rw [h]

theorem trans (h : Extension container wrappers p a b) (h' : Extension container more q b c) :
    Extension container (wrappers ++ more) (fun token => p token ∨ q token) a c where
  name := h'.name.trans h.name
  versionId := h'.versionId.trans h.versionId
  documents := h'.documents.trans h.documents
  userStrings := h'.userStrings.trans h.userStrings
  fields := h'.fields.trans h.fields
  locals := h'.locals.trans h.locals
  toKeepsReferences := h.toKeepsReferences.trans h'.toKeepsReferences
  attributes := h.attributes.trans h'.attributes
  typeDefCount := h'.typeDefCount.trans h.typeDefCount
  typeDef token := by
    rw [h'.typeDef, h.typeDef, Option.map_map]
    congr 1
    funext type
    simp only [Function.comp_apply]
    split_ifs <;> simp
  methodCount := by rw [h'.methodCount, h.methodCount, List.length_append, Nat.add_assoc]
  newMethods := by
    rw [List.length_append, ← List.range'_append_1, List.map_append, ← h.newMethods]
    have hsize : a.methods.size + 1 + wrappers.length = b.methods.size + 1 := by
      rw [h.methodCount]
      omega
    rw [hsize, ← h'.newMethods]
  method token row hr := by
    obtain ⟨body, hb, hp⟩ := h.method token row hr
    obtain ⟨last, hc, hq⟩ := h'.method token _ hb
    refine ⟨last, hc, fun hne => ?_⟩
    by_cases he : body = row.body
    · exact .inr (hq (by simpa [he] using hne))
    · exact .inl (hp he)

theorem mono (h : Extension container wrappers p a b) (hpq : ∀ token, p token → q token) :
    Extension container wrappers q a b :=
  { h with
    method := fun token row hr =>
      let ⟨body, hb, hp⟩ := h.method token row hr
      ⟨body, hb, fun hne => hpq token (hp hne)⟩ }

/-- Only methods that were there before can have been rewritten. -/
theorem restrict (h : Extension container wrappers p a b)
    (hpq : ∀ token, (a.method? token).isSome → p token → q token) :
    Extension container wrappers q a b :=
  { h with
    method := fun token row hr => by
      obtain ⟨body, hb, hp⟩ := h.method token row hr
      exact ⟨body, hb, fun hne => hpq token (Option.isSome_iff_exists.mpr ⟨row, hr⟩) (hp hne)⟩ }

/-- Without wrappers, any type may be named as the container. -/
theorem of_no_wrappers (h : Extension container [] p a b) (other : Option Token) :
    Extension other [] p a b :=
  { h with
    typeDef := fun token => by
      rw [h.typeDef]
      congr 1
      funext type
      split_ifs <;> simp }

theorem typeDef?_isSome (h : Extension container wrappers p a b) (token : Token) :
    (b.typeDef? token).isSome = (a.typeDef? token).isSome := by
  rw [h.typeDef, Option.isSome_map]

end Extension
end HotPatch.Module
