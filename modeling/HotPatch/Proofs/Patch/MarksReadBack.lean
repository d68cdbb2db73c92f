import HotPatch.Proofs.Module.Built
import HotPatch.Proofs.Patch.Frame
import HotPatch.Proofs.Patch.MarkRun

/-!
# Marks that are read back

A mark is read from the first attribute of its type on the method. The writer
refuses a method whose mark can be read, but an attribute of the same type may
be there without the fields of a mark: it passes this check, stays in front of
the new attribute, and hides it. So a new mark is read back, and is the only
attribute of its type, exactly if the method carried none of that type before.
-/

namespace HotPatch

section Carried

variable {module : Module} {method : Token} {type : SupportType}

/-- The attributes of a type on a method, in table order. -/
def carriedMarks (module : Module) (method : Token) (type : SupportType) : List CustomAttribute :=
  (module.attributesOf method).filter fun row => attributeType? module row.constructor == some type.fullName

theorem findMark?_eq_head? (module : Module) (method : Token) (type : SupportType) :
    findMark? module method type = (carriedMarks module method type).head?.map (·.value) := by
  rw [findMark?, carriedMarks, List.head?_filter]

theorem carriedMarks_push (module : Module) (row : CustomAttribute) (method : Token) (type : SupportType) :
    carriedMarks { module with attributes := module.attributes.push row } method type =
      carriedMarks module method type ++
        if row.parent = method ∧ attributeType? module row.constructor = some type.fullName then [row] else [] := by
  simp only [carriedMarks, Module.attributesOf, attributeType?_attributes, Array.toList_push,
    List.filter_append, List.append_cancel_left_eq]
  by_cases hp : row.parent = method <;>
    by_cases ht : attributeType? module row.constructor = some type.fullName <;> simp [hp, ht]

theorem carriedMarks_push_same {row : CustomAttribute}
    (ht : attributeType? module row.constructor = some type.fullName) :
    carriedMarks { module with attributes := module.attributes.push row } row.parent type =
      carriedMarks module row.parent type ++ [row] := by
  rw [carriedMarks_push, if_pos ⟨rfl, ht⟩]

/-- A new attribute is not seen on other methods. -/
theorem findMark?_push_of_ne {row : CustomAttribute} (hne : method ≠ row.parent) :
    findMark? { module with attributes := module.attributes.push row } method type =
      findMark? module method type := by
  rw [findMark?_push, if_neg fun h => hne h.1.symm, Option.or_none]

/-- A new attribute is not seen under other types. -/
theorem findMark?_push_of_type_ne {row : CustomAttribute}
    (hne : attributeType? module row.constructor ≠ some type.fullName) :
    findMark? { module with attributes := module.attributes.push row } method type =
      findMark? module method type := by
  rw [findMark?_push, if_neg fun h => hne h.2, Option.or_none]

/-- With nothing in front, the new attribute is read and is alone. -/
theorem findMark?_push_of_nil (row : CustomAttribute)
    (ht : attributeType? module row.constructor = some type.fullName)
    (hnil : carriedMarks module row.parent type = []) :
    findMark? { module with attributes := module.attributes.push row } row.parent type = some row.value := by
  rw [findMark?_eq_head?, carriedMarks_push_same ht, hnil]
  rfl

/-- Whatever was read first is still read first. -/
theorem findMark?_push_of_ne_nil {row : CustomAttribute}
    (hne : carriedMarks module method type ≠ []) :
    findMark? { module with attributes := module.attributes.push row } method type =
      findMark? module method type := by
  rw [findMark?_push, Option.or_of_isSome]
  rw [findMark?_eq_head?, Option.isSome_map, List.isSome_head?]
  exact hne

end Carried

namespace MarkWriter

variable {support : SupportTypes} {writer : MarkWriter} {module after : Module} {token : Token}

/-- Both marks of every other method are what they were. -/
def KeepsOtherMarks (support : SupportTypes) (method : Token) (module after : Module) : Prop :=
  ∀ other, other ≠ method → findIndexMark? support after other = findIndexMark? support module other ∧
    findWrapperMark? support after other = findWrapperMark? support module other

theorem KeepsOtherMarks.push (support : SupportTypes) (module : Module) (row : CustomAttribute) :
    KeepsOtherMarks support row.parent module { module with attributes := module.attributes.push row } := by
  intro other hne
  constructor
  · rw [findIndexMark?, findMark?_push_of_ne hne, findIndexMark?]
  · rw [findWrapperMark?, findMark?_push_of_ne hne, findWrapperMark?]

/-- A writer and the module it was made for, after any marks that were given or refused. -/
inductive InUse (support : SupportTypes) : MarkWriter → Module → Prop where
  | create {writer : MarkWriter} {before module : Module}
      (h : MarkWriter.create support before = (.ok writer, module)) (hfit : module.RowsFit) :
      InUse support writer module
  | markMethod {writer : MarkWriter} {module : Module} (h : InUse support writer module) (method : Token)
      (index : Nat) : InUse support writer (writer.markMethod method index module).2
  | markWrapper {writer : MarkWriter} {module : Module} (h : InUse support writer module) (wrapper : Token)
      (index position : Nat) (args : List TypeSig) :
      InUse support writer (writer.markWrapper wrapper index position args module).2

/-- What is done in the end changes attributes only, if it is done at all. -/
theorem attempt_addAttribute (row : CustomAttribute) :
    ∃ attributes, (Edit.attempt (·.addAttribute row) module).2 = { module with attributes } := by
  rcases h : module.addAttribute row with error | ⟨token, after⟩
  · exact ⟨module.attributes, by rw [Edit.attempt, h]⟩
  · obtain ⟨-, -, hsame⟩ := Module.addAttribute_spec h
    exact ⟨module.attributes.push row, by rw [Edit.attempt, h, hsame]⟩

theorem markMethod_attributes (writer : MarkWriter) (method : Token) (index : Nat) (module : Module) :
    ∃ attributes, (writer.markMethod method index module).2 = { module with attributes } := by
  rw [MarkWriter.markMethod, Edit.get_bind]
  split_ifs
  · exact ⟨module.attributes, rfl⟩
  · rw [bind_apply, Edit.inspect]
    rcases (do return IndexMark.mk (← markNumber index) : Result IndexMark) with error | mark
    · exact ⟨module.attributes, rfl⟩
    · exact attempt_addAttribute _

theorem markWrapper_attributes (writer : MarkWriter) (wrapper : Token) (index position : Nat)
    (args : List TypeSig) (module : Module) :
    ∃ attributes, (writer.markWrapper wrapper index position args module).2 = { module with attributes } := by
  rw [MarkWriter.markWrapper, Edit.get_bind]
  split_ifs
  · exact ⟨module.attributes, rfl⟩
  · rw [bind_apply, Edit.inspect]
    rcases (do
      let typeArguments ← args.mapM module.reflectionName
      return WrapperMark.mk (← markNumber index) (← markNumber position) typeArguments :
        Result WrapperMark) with error | mark
    · exact ⟨module.attributes, rfl⟩
    · exact attempt_addAttribute _

theorem Ready.of_attributes (h : writer.Ready module) (hsame : ∃ attributes, after = { module with attributes }) :
    writer.Ready after := by
  obtain ⟨attributes, rfl⟩ := hsame
  exact ⟨by rw [attributeType?_attributes, h.index], by rw [attributeType?_attributes, h.wrapper]⟩

/-- A writer in use knows the constructors of its two attribute types. -/
theorem InUse.ready (h : InUse support writer module) : writer.support = support ∧ writer.Ready module := by
  induction h with
  | create h hfit => exact (create_ready h hfit).2
  | markMethod _ method index ih => exact ⟨ih.1, ih.2.of_attributes (markMethod_attributes ..)⟩
  | markWrapper _ wrapper index position args ih =>
    exact ⟨ih.1, ih.2.of_attributes (markWrapper_attributes ..)⟩

theorem toInt_of_markNumber {index : Nat} {value : Int32} (h : markNumber index = .ok value) :
    value.toInt = index := by
  unfold markNumber at h
  split_ifs at h with hlt
  · cases h
    exact Int32.toInt_ofNat_of_lt hlt
  · cases h

/-- The number of a method is read back, from the only attribute of its type, exactly if the method carried
none before. Otherwise nothing is read. -/
theorem markMethod_reads (hw : InUse support writer module) {method : Token} {index : Nat}
    (h : writer.markMethod method index module = (.ok token, after)) :
    (carriedMarks after method support.index).length = (carriedMarks module method support.index).length + 1 ∧
      (carriedMarks module method support.index = [] →
        ∃ value : Int32, value.toInt = index ∧ findIndexMark? support after method = some ⟨value⟩) ∧
      (carriedMarks module method support.index ≠ [] → findIndexMark? support after method = none) := by
  obtain ⟨rfl, hready⟩ := hw.ready
  obtain ⟨hnone, value, hv, rfl⟩ := markMethod_ok h
  have htype := hready.index
  refine ⟨?_, fun hnil => ⟨value, toInt_of_markNumber hv, ?_⟩, fun hne => ?_⟩
  · rw [carriedMarks_push, if_pos ⟨rfl, htype⟩, List.length_append, List.length_singleton]
  · rw [findIndexMark?, findMark?_push_of_nil ⟨method, writer.indexConstructor, _⟩ htype hnil]
    exact IndexMark.read ⟨value⟩
  · rw [findIndexMark?, findMark?_push_of_ne_nil hne, ← findIndexMark?, hnone]

/-- The same for a wrapper: number, position and argument names are read back together. -/
theorem markWrapper_reads (hw : InUse support writer module) {wrapper : Token} {index position : Nat}
    {args : List TypeSig} (h : writer.markWrapper wrapper index position args module = (.ok token, after)) :
    (carriedMarks after wrapper support.wrapper).length =
        (carriedMarks module wrapper support.wrapper).length + 1 ∧
      (carriedMarks module wrapper support.wrapper = [] →
        ∃ (value place : Int32) (names : List String), value.toInt = index ∧ place.toInt = position ∧
          args.mapM module.reflectionName = .ok names ∧
          findWrapperMark? support after wrapper = some ⟨value, place, names⟩) ∧
      (carriedMarks module wrapper support.wrapper ≠ [] → findWrapperMark? support after wrapper = none) := by
  obtain ⟨rfl, hready⟩ := hw.ready
  obtain ⟨hnone, value, place, names, hv, hp, hn, rfl⟩ := markWrapper_ok h
  have htype := hready.wrapper
  refine ⟨?_, fun hnil => ⟨value, place, names, toInt_of_markNumber hv, toInt_of_markNumber hp, hn, ?_⟩,
    fun hne => ?_⟩
  · rw [carriedMarks_push, if_pos ⟨rfl, htype⟩, List.length_append, List.length_singleton]
  · rw [findWrapperMark?, findMark?_push_of_nil ⟨wrapper, writer.wrapperConstructor, _⟩ htype hnil]
    exact WrapperMark.read ⟨value, place, names⟩
  · rw [findWrapperMark?, findMark?_push_of_ne_nil hne, ← findWrapperMark?, hnone]

/-- The two shapes do not disturb each other, nor do marks on other methods. -/
theorem markMethod_keeps (hdiffer : support.index.fullName ≠ support.wrapper.fullName)
    (hw : InUse support writer module) {method : Token} {index : Nat}
    (h : writer.markMethod method index module = (.ok token, after)) :
    findWrapperMark? support after method = findWrapperMark? support module method ∧
      KeepsOtherMarks support method module after := by
  obtain ⟨rfl, hready⟩ := hw.ready
  obtain ⟨-, value, -, rfl⟩ := markMethod_ok h
  have htype : attributeType? module writer.indexConstructor ≠ some writer.support.wrapper.fullName := by
    simpa [hready.index] using hdiffer
  refine ⟨?_, .push writer.support module ⟨method, writer.indexConstructor, _⟩⟩
  rw [findWrapperMark?, findMark?_push_of_type_ne htype, ← findWrapperMark?]

theorem markWrapper_keeps (hdiffer : support.index.fullName ≠ support.wrapper.fullName)
    (hw : InUse support writer module) {wrapper : Token} {index position : Nat} {args : List TypeSig}
    (h : writer.markWrapper wrapper index position args module = (.ok token, after)) :
    findIndexMark? support after wrapper = findIndexMark? support module wrapper ∧
      KeepsOtherMarks support wrapper module after := by
  obtain ⟨rfl, hready⟩ := hw.ready
  obtain ⟨-, value, place, names, -, -, -, rfl⟩ := markWrapper_ok h
  have htype : attributeType? module writer.wrapperConstructor ≠ some writer.support.index.fullName := by
    simpa [hready.wrapper] using hdiffer.symm
  refine ⟨?_, .push writer.support module ⟨wrapper, writer.wrapperConstructor, _⟩⟩
  rw [findIndexMark?, findMark?_push_of_type_ne htype, ← findIndexMark?]

/-- A mark that was given is read back as it was written, and its attribute is the only one of its type on the
method, exactly if the method carried no attribute of this type before. Nothing else that is read changes. -/
theorem marks_read_back (hdiffer : support.index.fullName ≠ support.wrapper.fullName)
    (hw : InUse support writer module) (method : Token) :
    (∀ index token after, writer.markMethod method index module = (.ok token, after) →
      ((∃ value : Int32, value.toInt = index ∧ findIndexMark? support after method = some ⟨value⟩) ∧
          (carriedMarks after method support.index).length = 1 ↔
        carriedMarks module method support.index = []) ∧
      findWrapperMark? support after method = findWrapperMark? support module method ∧
      KeepsOtherMarks support method module after) ∧
    (∀ index position args token after,
      writer.markWrapper method index position args module = (.ok token, after) →
      ((∃ (value place : Int32) (names : List String), value.toInt = index ∧ place.toInt = position ∧
            args.mapM module.reflectionName = .ok names ∧
            findWrapperMark? support after method = some ⟨value, place, names⟩) ∧
          (carriedMarks after method support.wrapper).length = 1 ↔
        carriedMarks module method support.wrapper = []) ∧
      findIndexMark? support after method = findIndexMark? support module method ∧
      KeepsOtherMarks support method module after) := by
  constructor
  · intro index token after h
    obtain ⟨hlength, hread, -⟩ := markMethod_reads hw h
    refine ⟨⟨fun hone => ?_, fun hnil => ⟨hread hnil, ?_⟩⟩, markMethod_keeps hdiffer hw h⟩
    · rw [hone.2] at hlength
      exact List.eq_nil_of_length_eq_zero (by omega)
    · rw [hlength, hnil, List.length_nil]
  · intro index position args token after h
    obtain ⟨hlength, hread, -⟩ := markWrapper_reads hw h
    refine ⟨⟨fun hone => ?_, fun hnil => ⟨hread hnil, ?_⟩⟩, markWrapper_keeps hdiffer hw h⟩
    · rw [hone.2] at hlength
      exact List.eq_nil_of_length_eq_zero (by omega)
    · rw [hlength, hnil, List.length_nil]

/-!
A generic method in a module that has the two attribute types already, before
and after it got an attribute of the index type without the field of a mark.
-/

def preparedModule : Module := (MarkWriter.create Sample.support Sample.module).2

def unreadableMark : CustomAttribute := ⟨Sample.make, .ofRow .memberRef 1, {}⟩

def taggedModule : Module := (Edit.attempt (·.addAttribute unreadableMark) preparedModule).2

def sampleWriter : MarkWriter := ⟨Sample.support, .ofRow .memberRef 1, .ofRow .memberRef 2⟩

theorem sampleWriter_inUse {module : Module}
    (h : (MarkWriter.create Sample.support module).1.toOption = some sampleWriter)
    (hfit : ∀ table ∈ Table.all, (MarkWriter.create Sample.support module).2.rowCount table < Token.rowLimit) :
    InUse Sample.support sampleWriter (MarkWriter.create Sample.support module).2 :=
  .create (eq_of_toOption h) fun table => hfit table (by cases table <;> decide)

theorem marks_read_back_sample :
    (sampleWriter.markMethod Sample.make 3 preparedModule).1.toOption = some (.ofRow .customAttribute 1) ∧
      Sample.support.index.fullName ≠ Sample.support.wrapper.fullName ∧
      ((∃ value : Int32, value.toInt = (3 : Nat) ∧
          findIndexMark? Sample.support (sampleWriter.markMethod Sample.make 3 preparedModule).2 Sample.make =
            some ⟨value⟩) ∧
        (carriedMarks (sampleWriter.markMethod Sample.make 3 preparedModule).2 Sample.make
          Sample.support.index).length = 1) := by
  have hdiffer : Sample.support.index.fullName ≠ Sample.support.wrapper.fullName := by decide +kernel
  have hmark : (sampleWriter.markMethod Sample.make 3 preparedModule).1.toOption =
      some (.ofRow .customAttribute 1) := by decide +kernel
  have hw : InUse Sample.support sampleWriter preparedModule :=
    sampleWriter_inUse (by decide +kernel) (by decide +kernel)
  have hnil : carriedMarks preparedModule Sample.make Sample.support.index = [] := by decide +kernel
  obtain ⟨hmethod, -⟩ := marks_read_back hdiffer hw Sample.make
  obtain ⟨hread, -⟩ := hmethod 3 _ _ (eq_of_toOption hmark)
  exact ⟨hmark, hdiffer, hread.mpr hnil⟩

/-- The new mark stands behind the attribute that cannot be read, which hides it. -/
theorem markMethod_hidden :
    InUse Sample.support sampleWriter (MarkWriter.create Sample.support taggedModule).2 ∧
      (sampleWriter.markMethod Sample.make 3 (MarkWriter.create Sample.support taggedModule).2).1.toOption =
        some (.ofRow .customAttribute 2) ∧
      findIndexMark? Sample.support
        (sampleWriter.markMethod Sample.make 3 (MarkWriter.create Sample.support taggedModule).2).2 Sample.make =
          none ∧
      (carriedMarks (sampleWriter.markMethod Sample.make 3 (MarkWriter.create Sample.support taggedModule).2).2
        Sample.make Sample.support.index).length = 2 := by
  refine ⟨sampleWriter_inUse ?_ ?_, ?_, ?_, ?_⟩ <;> decide +kernel

end MarkWriter
end HotPatch
