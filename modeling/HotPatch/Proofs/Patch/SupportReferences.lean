import HotPatch.Proofs.Patch.Frame
import HotPatch.Proofs.Patch.MarkRun

/-!
# References to the attribute types

An attribute type is looked up in the support module under its full name, which
spells out the levels around a nested type. What is kept of it is the assembly
and the name of its last level, and its constructor is imported for a top-level
type of that name. So the imported constructor belongs to the type that was
configured exactly if that type is a top-level one.
-/

namespace HotPatch

section Levels

/-- With or without a space, the name of a single level shows no level around it. -/
theorem TypeName.text_ne_level (name : TypeName) (outer : String) :
    name.text ≠ outer ++ "/" ++ name.simple := by
  intro h
  unfold TypeName.text at h
  split_ifs at h
  · have hlength := congrArg String.length h
    simp only [String.length_append] at hlength
    have hslash : "/".length = 1 := rfl
    omega
  · have hlists := congrArg String.toList h
    simp only [String.toList_append] at hlists
    exact absurd (List.append_inj_right' (List.append_cancel_right hlists) rfl) (by decide)

end Levels

namespace Module

variable {module later : Module} {container : Option Token} {wrappers : List Token} {p : Token → Prop}

/-- The definition found under the full name stands in no other type. -/
def HasTopLevel (module : Module) (fullName : String) : Prop :=
  ∃ row, (module.findType? fullName).bind module.typeDef? = some row ∧ row.enclosing = none

/-- A type reference that leads, through the references around it, to an assembly. -/
inductive ScopedTo (module : Module) (assembly : String) : Token → Prop
  | direct {token : Token} {name : TypeName} (row : module.typeRef? token = some ⟨.assembly assembly, name⟩) :
    ScopedTo module assembly token
  | nested {token enclosing : Token} {name : TypeName}
    (row : module.typeRef? token = some ⟨.nested enclosing, name⟩) (outer : ScopedTo module assembly enclosing) :
    ScopedTo module assembly token

/-- The token is the constructor without arguments of a type reference with the given assembly and full name. -/
def ConstructorOf (module : Module) (constructor : Token) (assembly fullName : String) : Prop :=
  ∃ parent, module.memberRef? constructor = some ⟨parent, MethodDef.constructorName, SupportType.constructorSig⟩ ∧
    module.ScopedTo assembly parent ∧ module.fullName parent = .ok fullName

theorem ScopedTo.extension {assembly : String} {token : Token} (h : module.ScopedTo assembly token)
    (he : Extension container wrappers p module later) : later.ScopedTo assembly token := by
  induction h with
  | direct row => exact .direct (he.toKeepsReferences.typeRef? row)
  | nested row _ ih => exact .nested (he.toKeepsReferences.typeRef? row) ih

namespace ConstructorOf

variable {constructor : Token} {assembly other fullName name : String}

theorem extension (h : module.ConstructorOf constructor assembly fullName)
    (he : Extension container wrappers p module later) : later.ConstructorOf constructor assembly fullName := by
  obtain ⟨parent, hmember, hscope, hname⟩ := h
  exact ⟨parent, he.toKeepsReferences.memberRef? hmember, hscope.extension he, he.fullName hname⟩

/-- A constructor belongs to one type. -/
theorem fullName_unique (h : module.ConstructorOf constructor assembly fullName)
    (h' : module.ConstructorOf constructor other name) : fullName = name := by
  obtain ⟨parent, hmember, -, hname⟩ := h
  obtain ⟨parent', hmember', -, hname'⟩ := h'
  rw [hmember, Option.some.injEq, MemberRef.mk.injEq] at hmember'
  rw [← hmember'.1, hname, Except.ok.injEq] at hname'
  exact hname'

end ConstructorOf

/-- A definition that was found under a full name has this name. -/
theorem fullName_of_findType? {fullName : String} {token : Token} (h : module.findType? fullName = some token) :
    module.fullName token = .ok fullName := by
  have hfound := List.find?_some h
  rcases hname : module.fullName token with error | text
  · simp [hname, Except.toOption] at hfound
  · simpa [hname, Except.toOption] using hfound

/-- The name of a definition's own level is its full name if and only if there is no level around it. -/
theorem typeName_eq_fullName_iff {token : Token} {row : TypeDef} {fullName : String}
    (hrow : module.typeDef? token = some row) (hname : module.fullName token = .ok fullName) :
    row.name.text = fullName ↔ row.enclosing = none := by
  obtain ⟨levels, hlevels, htext⟩ := bind_eq_ok.mp hname
  rw [Module.nestedName, hrow] at hlevels
  dsimp only at hlevels
  rcases henclosing : row.enclosing with - | enclosing
  · rw [henclosing] at hlevels
    cases hlevels
    cases htext
    exact iff_of_true rfl rfl
  · rw [henclosing] at hlevels
    obtain ⟨outer, -, hnest⟩ := bind_eq_ok.mp hlevels
    cases hnest
    cases htext
    rw [NestedName.text_nest]
    exact iff_of_false (row.name.text_ne_level _) (by simp)

end Module

namespace SupportType

variable {support before after : Module} {fullName : String} {type : SupportType}

/-- What is kept of a type that was found. -/
theorem resolve_ok (h : resolve support fullName = .ok type) :
    ∃ token row, support.findType? fullName = some token ∧ support.typeDef? token = some row ∧
      type = ⟨support.name, row.name⟩ := by
  unfold resolve at h
  split at h
  · rename_i row hrow
    obtain ⟨token, htoken, hrow⟩ := Option.bind_eq_some_iff.mp hrow
    split_ifs at h
    cases h
    exact ⟨token, row, htoken, hrow, rfl⟩
  · cases h

theorem assembly_of_resolve (h : resolve support fullName = .ok type) : type.assembly = support.name := by
  obtain ⟨token, row, -, -, rfl⟩ := resolve_ok h
  rfl

/-- The full name that is kept is the one that was looked up, unless the type is nested. -/
theorem fullName_eq_iff (h : resolve support fullName = .ok type) :
    type.fullName = fullName ↔ support.HasTopLevel fullName := by
  obtain ⟨token, row, htoken, hrow, rfl⟩ := resolve_ok h
  have hiff := Module.typeName_eq_fullName_iff hrow (Module.fullName_of_findType? htoken)
  rw [SupportType.fullName, hiff, Module.HasTopLevel, htoken, Option.bind_some, hrow]
  simp

/-- The import goes to the assembly and the name that were kept. -/
theorem importConstructor_constructorOf {constructor : Token}
    (h : type.importConstructor before = (.ok constructor, after)) (hfit : after.RowsFit) :
    after.ConstructorOf constructor type.assembly type.fullName := by
  obtain ⟨parent, middle, hparent, h⟩ := run_bind_eq_ok.mp h
  have hadds := (Edit.Settles.addMemberRef _ _ _ _ h).1.extension none
  have htype := Module.typeRef?_addTypeRef (Edit.always_eq_ok.mp hparent) (hadds.grows.rowsFit hfit)
  exact ⟨parent, Module.memberRef?_addMemberRef (Edit.always_eq_ok.mp h) hfit,
    (Module.ScopedTo.direct htype).extension hadds, hadds.fullName (fullName_of_typeRef htype)⟩

/-- The constructor of a resolved type belongs to the configured type if and only if that is a top-level one. -/
theorem constructorOf_iff {constructor : Token} (hresolve : resolve support fullName = .ok type)
    (h : before.ConstructorOf constructor type.assembly type.fullName) :
    before.ConstructorOf constructor support.name fullName ↔ support.HasTopLevel fullName := by
  rw [← fullName_eq_iff hresolve]
  constructor
  · exact h.fullName_unique
  · intro hname
    rwa [hname, assembly_of_resolve hresolve] at h

end SupportType

namespace MarkWriter

variable {config : Config} {support patch : Module} {types : SupportTypes}

/-- Both constructors are imported whatever the module holds. -/
theorem exists_create (types : SupportTypes) (patch : Module) :
    ∃ writer after, MarkWriter.create types patch = (.ok writer, after) := ⟨_, _, rfl⟩

theorem create_constructorOf {writer : MarkWriter} {after : Module}
    (h : MarkWriter.create types patch = (.ok writer, after)) (hfit : after.RowsFit) :
    after.ConstructorOf writer.indexConstructor types.index.assembly types.index.fullName ∧
      after.ConstructorOf writer.wrapperConstructor types.wrapper.assembly types.wrapper.fullName := by
  obtain ⟨index, first, hindex, h⟩ := run_bind_eq_ok.mp h
  obtain ⟨wrapper, second, hwrapper, h⟩ := run_bind_eq_ok.mp h
  obtain ⟨rfl, rfl⟩ := run_pure_eq_ok.mp h
  have hadds := (importConstructor_settles _ _ _ _ hwrapper).1.extension none
  exact ⟨(SupportType.importConstructor_constructorOf hindex (hadds.grows.rowsFit hfit)).extension hadds,
    SupportType.importConstructor_constructorOf hwrapper hfit⟩

/-- The constructors that a writer imports belong to references to the configured types in the support module's
assembly, for each annotation exactly if the configured type is a top-level one. -/
theorem create_configured_iff (hresolve : SupportTypes.resolve config support = .ok types)
    (hfit : (MarkWriter.create types patch).2.RowsFit) :
    ∃ writer after, MarkWriter.create types patch = (.ok writer, after) ∧
      (after.ConstructorOf writer.indexConstructor support.name config.indexAttribute ↔
        support.HasTopLevel config.indexAttribute) ∧
      (after.ConstructorOf writer.wrapperConstructor support.name config.wrapperAttribute ↔
        support.HasTopLevel config.wrapperAttribute) := by
  obtain ⟨index, hindex, hresolve⟩ := bind_eq_ok.mp hresolve
  obtain ⟨wrapper, hwrapper, hresolve⟩ := bind_eq_ok.mp hresolve
  cases hresolve
  obtain ⟨writer, after, hcreate⟩ := exists_create ⟨index, wrapper⟩ patch
  rw [hcreate] at hfit
  obtain ⟨hindexRef, hwrapperRef⟩ := create_constructorOf hcreate hfit
  exact ⟨writer, after, hcreate, SupportType.constructorOf_iff hindex hindexRef,
    SupportType.constructorOf_iff hwrapper hwrapperRef⟩

/-!
A support module with one attribute type inside another type and one at the top.
-/

def nestingConfig : Config :=
  { supportModule := "Share", indexAttribute := "Game.Marks/Index", wrapperAttribute := "Game.Wrapper" }

def attributeConstructor (owner : Token) : MethodDef :=
  { owner, name := MethodDef.constructorName, body := some { instructions := [{ opcode := .ret }] } }

def nestingSupport : Module :=
  ((((Module.withType { name := "Share" } { name := ⟨"Game", "Marks"⟩ }).withType
    { name := ⟨"", "Index"⟩, enclosing := some (.ofRow .typeDef 1) }).withType
    { name := ⟨"Game", "Wrapper"⟩ }).withMethod (attributeConstructor (.ofRow .typeDef 2))).withMethod
    (attributeConstructor (.ofRow .typeDef 3))

def keptTypes : SupportTypes := ⟨⟨"Share", ⟨"", "Index"⟩⟩, ⟨"Share", ⟨"Game", "Wrapper"⟩⟩⟩

def keptWriter : MarkWriter := ⟨keptTypes, .ofRow .memberRef 1, .ofRow .memberRef 2⟩

theorem resolve_nestingSupport : SupportTypes.resolve nestingConfig nestingSupport = .ok keptTypes :=
  eq_ok_of_toOption (by decide +kernel)

theorem rowsFit_keptTypes : (MarkWriter.create keptTypes Sample.module).2.RowsFit := by
  have hfit : ∀ table ∈ Table.all,
      (MarkWriter.create keptTypes Sample.module).2.rowCount table < Token.rowLimit := by decide +kernel
  exact fun table => hfit table (by cases table <;> decide)

theorem hasTopLevel_wrapper : nestingSupport.HasTopLevel nestingConfig.wrapperAttribute :=
  ⟨_, rfl, rfl⟩

theorem create_configured_iff_nestingSupport :
    SupportTypes.resolve nestingConfig nestingSupport = .ok keptTypes ∧
      (MarkWriter.create keptTypes Sample.module).2.RowsFit ∧
      ∃ writer after, MarkWriter.create keptTypes Sample.module = (.ok writer, after) ∧
        after.ConstructorOf writer.wrapperConstructor nestingSupport.name nestingConfig.wrapperAttribute := by
  obtain ⟨writer, after, hcreate, -, hwrapper⟩ := create_configured_iff resolve_nestingSupport rowsFit_keptTypes
  exact ⟨resolve_nestingSupport, rowsFit_keptTypes, writer, after, hcreate, hwrapper.mpr hasTopLevel_wrapper⟩

/-- The nested attribute type is found, but the imported constructor belongs to a top-level type of the same
assembly. -/
theorem create_loses_level : SupportTypes.resolve nestingConfig nestingSupport = .ok keptTypes ∧
    ∃ after, MarkWriter.create keptTypes Sample.module = (.ok keptWriter, after) ∧ after.RowsFit ∧
      after.ConstructorOf keptWriter.indexConstructor nestingSupport.name "Index" ∧
      ¬after.ConstructorOf keptWriter.indexConstructor nestingSupport.name nestingConfig.indexAttribute := by
  have hcreate : MarkWriter.create keptTypes Sample.module =
      (.ok keptWriter, (MarkWriter.create keptTypes Sample.module).2) := eq_of_toOption (by decide +kernel)
  have hindex := (create_constructorOf hcreate rowsFit_keptTypes).1
  have hname : keptWriter.support.index.fullName = "Index" := by decide +kernel
  refine ⟨resolve_nestingSupport, _, hcreate, rowsFit_keptTypes, hindex, fun hnested => ?_⟩
  exact absurd (hnested.fullName_unique hindex) (by decide +kernel)

end MarkWriter
end HotPatch
