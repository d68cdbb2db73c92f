import HotPatch.Patch.Marks
import HotPatch.Proofs.Module.StableImport
import HotPatch.Proofs.Module.StableNames

/-!
# Runs of the marking phase

`Marks` tells which marks the methods of a module carry. A step adds one mark to
a method that had none of its shape, so marks are never lost and never replaced,
and what a run adds can be read off the records.
-/

namespace HotPatch

/-- The type of an attribute stays the same, known or not, while references, attributes and bodies are
added. -/
def TypeSettled (module : Module) (constructor : Token) : Prop :=
  ∀ rewritten later, Module.Extension none [] rewritten module later →
    attributeType? later constructor = attributeType? module constructor

/-- The marks in a module, by method. All attributes of the two types are marks. -/
structure Marks (support : SupportTypes) (module : Module) (index : Token → Option IndexMark)
    (wrapper : Token → Option WrapperMark) : Prop where
  index : ∀ method, findMark? module method support.index = (index method).map (·.value)
  wrapper : ∀ method, findMark? module method support.wrapper = (wrapper method).map (·.value)
  settled : ∀ row ∈ module.attributes, TypeSettled module row.constructor

section Reading

variable {support : SupportTypes} {module : Module} {index : Token → Option IndexMark}
  {wrapper : Token → Option WrapperMark}

theorem asTypeNames?_types (names : List String) :
    (Attribute.Argument.array (names.map .type)).asTypeNames? = some names := by
  simp only [Attribute.Argument.asTypeNames?]
  induction names with
  | nil => rfl
  | cons name names ih => simp [ih]

theorem IndexMark.read (mark : IndexMark) :
    (do return IndexMark.mk (← (← mark.value.field? indexField).asI4?) : Option IndexMark) = some mark := rfl

theorem WrapperMark.read (mark : WrapperMark) :
    (do return {
      index := ← (← mark.value.field? indexField).asI4?
      position := ← (← mark.value.field? positionField).asI4?
      typeArguments := ← (← mark.value.field? typeArgumentsField).asTypeNames? } : Option WrapperMark) =
      some mark := by
  have hi : mark.value.field? indexField = some (.i4 mark.index) := rfl
  have hp : mark.value.field? positionField = some (.i4 mark.position) := rfl
  have ht : mark.value.field? typeArgumentsField = some (.array (mark.typeArguments.map .type)) := rfl
  rw [hi, hp, ht]
  change (Attribute.Argument.asTypeNames? _).bind _ = _
  rw [asTypeNames?_types]
  rfl

theorem Marks.findIndexMark? (h : Marks support module index wrapper) (method : Token) :
    findIndexMark? support module method = index method := by
  unfold HotPatch.findIndexMark?
  rw [h.index]
  rcases index method with - | mark
  · rfl
  · exact mark.read

theorem Marks.findWrapperMark? (h : Marks support module index wrapper) (method : Token) :
    findWrapperMark? support module method = wrapper method := by
  unfold HotPatch.findWrapperMark?
  rw [h.wrapper]
  rcases wrapper method with - | mark
  · rfl
  · exact mark.read

end Reading

section Attributes

variable {support : SupportTypes} {module module' : Module} {index : Token → Option IndexMark}
  {wrapper : Token → Option WrapperMark} {container : Option Token} {wrappers : List Token}
  {p : Token → Prop}

theorem methodOwner?_mono (h : Module.Extension container wrappers p module module') {token owner : Token}
    (ho : module.methodOwner? token = some owner) : module'.methodOwner? token = some owner := by
  obtain ⟨row, hr, rfl⟩ := Option.map_eq_some_iff.mp ho
  obtain ⟨body, hb, -⟩ := h.method token row hr
  rw [Module.methodOwner?, hb]
  rfl

/-- The type that a constructor belongs to. -/
def attributeOwner? (module : Module) (constructor : Token) : Option Token :=
  match constructor.table? with
  | some .memberRef => (module.memberRef? constructor).map (·.parent)
  | some .methodDef => module.methodOwner? constructor
  | _ => none

theorem attributeType?_eq (module : Module) (constructor : Token) :
    attributeType? module constructor =
      (attributeOwner? module constructor).bind fun owner => (module.fullName owner).toOption := by
  unfold attributeType? attributeOwner?
  rcases constructor.table? with - | table
  · rfl
  · cases table <;> rfl

theorem attributeOwner?_mono (h : Module.Extension container wrappers p module module')
    {constructor owner : Token} (ho : attributeOwner? module constructor = some owner) :
    attributeOwner? module' constructor = some owner := by
  unfold attributeOwner? at ho ⊢
  split at ho
  · obtain ⟨row, hr, rfl⟩ := Option.map_eq_some_iff.mp ho
    exact Option.map_eq_some_iff.mpr ⟨row, h.toKeepsReferences.memberRef? hr, rfl⟩
  · exact methodOwner?_mono h ho
  · cases ho

/-- A known attribute type stays what it is. -/
theorem attributeType?_mono (h : Module.Extension container wrappers p module module') {constructor : Token}
    {name : String} (hn : attributeType? module constructor = some name) :
    attributeType? module' constructor = some name := by
  rw [attributeType?_eq] at hn ⊢
  obtain ⟨owner, ho, hn⟩ := Option.bind_eq_some_iff.mp hn
  refine Option.bind_eq_some_iff.mpr ⟨owner, attributeOwner?_mono h ho, ?_⟩
  rcases hf : module.fullName owner with error | text <;> rw [hf] at hn
  · cases hn
  · rw [h.fullName hf]
    exact hn

theorem TypeSettled.of_isSome {constructor : Token} (h : (attributeType? module constructor).isSome) :
    TypeSettled module constructor := by
  intro rewritten later he
  obtain ⟨name, hn⟩ := Option.isSome_iff_exists.mp h
  rw [hn, attributeType?_mono he hn]

theorem TypeSettled.extension {constructor : Token} (h : TypeSettled module constructor)
    (he : Module.Extension none [] p module module') : TypeSettled module' constructor := by
  intro rewritten later hl
  rw [h _ later (he.trans hl), h _ module' he]

/-- Marks stay as long as no attribute is added. -/
theorem Marks.extension (hm : Marks support module index wrapper)
    (h : Module.Extension none [] p module module')
    (ha : module'.attributes = module.attributes) : Marks support module' index wrapper := by
  have htype : ∀ row ∈ module.attributes,
      attributeType? module' row.constructor = attributeType? module row.constructor :=
    fun row hr => hm.settled row hr _ _ h
  have hfind : ∀ method type, findMark? module' method type = findMark? module method type := by
    intro method type
    rw [findMark?, findMark?, Module.attributesOf, Module.attributesOf, ha]
    congr 1
    refine List.find?_congr fun row hr => ?_
    rw [htype row (by simpa using List.mem_of_mem_filter hr)]
  refine ⟨fun method => ?_, fun method => ?_, fun row hr => ?_⟩
  · rw [hfind, hm.index]
  · rw [hfind, hm.wrapper]
  · rw [ha] at hr
    exact (hm.settled row hr).extension h

/-- Attributes do not matter for names. -/
theorem attributeType?_attributes (module : Module) (attributes : Array CustomAttribute) (constructor : Token) :
    attributeType? { module with attributes } constructor = attributeType? module constructor := by
  have hname : ∀ levels token, Module.nestedName { module with attributes } levels token =
      module.nestedName levels token := by
    intro levels
    induction levels with
    | zero => exact fun _ => rfl
    | succ levels ih =>
      intro token
      simp only [Module.nestedName, ih]
      rfl
  rw [attributeType?_eq, attributeType?_eq]
  simp only [Module.fullName, hname]
  rfl

theorem findMark?_push (module : Module) (row : CustomAttribute) (method : Token) (type : SupportType) :
    findMark? { module with attributes := module.attributes.push row } method type =
      (findMark? module method type).or
        (if row.parent = method ∧ attributeType? module row.constructor = some type.fullName then
          some row.value else none) := by
  simp only [findMark?, Module.attributesOf, attributeType?_attributes, Array.toList_push,
    List.filter_append, List.find?_append, Option.map_or]
  congr 1
  by_cases hp : row.parent = method <;>
    by_cases ht : attributeType? module row.constructor = some type.fullName <;> simp [hp, ht]

end Attributes

/-- How marks develop while attributes are added: none is lost, and new ones are on the listed methods
and wrappers. -/
structure MarkStep (support : SupportTypes) (before after : Module) (index index' : Token → Option IndexMark)
    (wrapper wrapper' : Token → Option WrapperMark) (methods wrappers : Token → Prop) : Prop where
  marks : Marks support after index' wrapper'
  same : after = { before with attributes := after.attributes }
  attributes : before.attributes.toList <+: after.attributes.toList
  indexKept : ∀ token mark, index token = some mark → index' token = some mark
  wrapperKept : ∀ token mark, wrapper token = some mark → wrapper' token = some mark
  indexNew : ∀ token mark, index' token = some mark → index token = some mark ∨ methods token
  wrapperNew : ∀ token mark, wrapper' token = some mark → wrapper token = some mark ∨ wrappers token

namespace MarkStep

variable {support : SupportTypes} {a b c : Module} {index index' index'' : Token → Option IndexMark}
  {wrapper wrapper' wrapper'' : Token → Option WrapperMark} {m w m' w' : Token → Prop}

theorem refl (h : Marks support a index wrapper) (m w : Token → Prop) :
    MarkStep support a a index index wrapper wrapper m w :=
  ⟨h, rfl, List.prefix_refl _, fun _ _ h => h, fun _ _ h => h, fun _ _ h => .inl h, fun _ _ h => .inl h⟩

theorem trans (h : MarkStep support a b index index' wrapper wrapper' m w)
    (h' : MarkStep support b c index' index'' wrapper' wrapper'' m' w') :
    MarkStep support a c index index'' wrapper wrapper'' (fun x => m x ∨ m' x) (fun x => w x ∨ w' x) where
  marks := h'.marks
  same := by
    have hc := h'.same
    rw [h.same] at hc
    exact hc
  attributes := h.attributes.trans h'.attributes
  indexKept token mark hi := h'.indexKept token mark (h.indexKept token mark hi)
  wrapperKept token mark hi := h'.wrapperKept token mark (h.wrapperKept token mark hi)
  indexNew token mark hi := by
    rcases h'.indexNew token mark hi with hi | hi
    · exact (h.indexNew token mark hi).imp_right .inl
    · exact .inr (.inr hi)
  wrapperNew token mark hi := by
    rcases h'.wrapperNew token mark hi with hi | hi
    · exact (h.wrapperNew token mark hi).imp_right .inl
    · exact .inr (.inr hi)

theorem mono (h : MarkStep support a b index index' wrapper wrapper' m w) (hm : ∀ x, m x → m' x)
    (hw : ∀ x, w x → w' x) : MarkStep support a b index index' wrapper wrapper' m' w' :=
  { h with
    indexNew := fun token mark hi => (h.indexNew token mark hi).imp_right (hm token)
    wrapperNew := fun token mark hi => (h.wrapperNew token mark hi).imp_right (hw token) }

theorem extension (h : MarkStep support a b index index' wrapper wrapper' m w) (container : Option Token) :
    Module.Extension container [] (fun _ => False) a b :=
  .of_attributes container h.same h.attributes

theorem attributeType?_eq (h : MarkStep support a b index index' wrapper wrapper' m w) (constructor : Token) :
    attributeType? b constructor = attributeType? a constructor := by
  rw [h.same, attributeType?_attributes]

end MarkStep

/-- The constructors that a writer uses belong to the two attribute types. -/
structure MarkWriter.Ready (writer : MarkWriter) (module : Module) : Prop where
  index : attributeType? module writer.indexConstructor = some writer.support.index.fullName
  wrapper : attributeType? module writer.wrapperConstructor = some writer.support.wrapper.fullName

section Steps

variable {writer : MarkWriter} {before after : Module} {index : Token → Option IndexMark}
  {wrapper : Token → Option WrapperMark} {token : Token}

theorem markMethod_ok {method : Token} {number : Nat}
    (h : writer.markMethod method number before = (.ok token, after)) :
    findIndexMark? writer.support before method = none ∧ ∃ value, markNumber number = .ok value ∧
      after = { before with
        attributes := before.attributes.push ⟨method, writer.indexConstructor, (IndexMark.mk value).value⟩ } := by
  unfold MarkWriter.markMethod at h
  rw [Edit.get_bind] at h
  split_ifs at h with hs
  · exact absurd h Edit.throw_ne_ok
  · obtain ⟨mark, hm, h⟩ := Edit.inspect_bind_eq_ok.mp h
    obtain ⟨value, hv, hm⟩ := bind_eq_ok.mp hm
    cases hm
    obtain ⟨-, -, hsame⟩ := Module.addAttribute_spec (Edit.attempt_eq_ok.mp h)
    exact ⟨by simpa using hs, value, hv, hsame⟩

theorem markWrapper_ok {method : Token} {number position : Nat} {args : List TypeSig}
    (h : writer.markWrapper method number position args before = (.ok token, after)) :
    findWrapperMark? writer.support before method = none ∧ ∃ value place names,
      markNumber number = .ok value ∧ markNumber position = .ok place ∧
      args.mapM before.reflectionName = .ok names ∧
      after = { before with
        attributes := before.attributes.push
          ⟨method, writer.wrapperConstructor, (WrapperMark.mk value place names).value⟩ } := by
  unfold MarkWriter.markWrapper at h
  rw [Edit.get_bind] at h
  split_ifs at h with hs
  · exact absurd h Edit.throw_ne_ok
  · obtain ⟨mark, hm, h⟩ := Edit.inspect_bind_eq_ok.mp h
    obtain ⟨names, hn, hm⟩ := bind_eq_ok.mp hm
    obtain ⟨value, hv, hm⟩ := bind_eq_ok.mp hm
    obtain ⟨place, hp, hm⟩ := bind_eq_ok.mp hm
    cases hm
    obtain ⟨-, -, hsame⟩ := Module.addAttribute_spec (Edit.attempt_eq_ok.mp h)
    exact ⟨by simpa using hs, value, place, names, hv, hp, hn, hsame⟩

/-- A method gets its mark, and no other method does. -/
theorem markMethod_step {method : Token} {number : Nat}
    (hdiffer : writer.support.index.fullName ≠ writer.support.wrapper.fullName) (hw : writer.Ready before)
    (hm : Marks writer.support before index wrapper)
    (h : writer.markMethod method number before = (.ok token, after)) :
    ∃ value, markNumber number = .ok value ∧
      MarkStep writer.support before after index (Function.update index method (some ⟨value⟩)) wrapper wrapper
        (· = method) (fun _ => False) := by
  obtain ⟨hnone, value, hv, rfl⟩ := markMethod_ok h
  rw [hm.findIndexMark?] at hnone
  refine ⟨value, hv, ⟨⟨fun other => ?_, fun other => ?_, fun row hr => ?_⟩, rfl,
    toList_prefix_push _ _, fun other mark ho => ?_, fun _ _ h => h, fun other mark ho => ?_,
    fun _ _ h => .inl h⟩⟩
  · rw [findMark?_push, hm.index]
    by_cases he : other = method
    · subst he
      simp [hnone, hw.index]
    · simp [Function.update_of_ne he, Ne.symm he]
  · rw [findMark?_push, hm.wrapper]
    simp [hw.index, hdiffer]
  · rcases Array.mem_push.mp hr with hr | rfl
    · exact (hm.settled row hr).extension (.of_attributes none rfl (toList_prefix_push _ _))
    · exact .of_isSome (by rw [attributeType?_attributes, hw.index]; rfl)
  · by_cases he : other = method
    · subst he
      simp [hnone] at ho
    · rwa [Function.update_of_ne he]
  · by_cases he : other = method
    · exact .inr he
    · rw [Function.update_of_ne he] at ho
      exact .inl ho

/-- A wrapper gets its mark, and no other method does. -/
theorem markWrapper_step {method : Token} {number position : Nat} {args : List TypeSig}
    (hdiffer : writer.support.index.fullName ≠ writer.support.wrapper.fullName) (hw : writer.Ready before)
    (hm : Marks writer.support before index wrapper)
    (h : writer.markWrapper method number position args before = (.ok token, after)) :
    ∃ value place names, markNumber number = .ok value ∧ markNumber position = .ok place ∧
      args.mapM before.reflectionName = .ok names ∧
      MarkStep writer.support before after index index wrapper
        (Function.update wrapper method (some ⟨value, place, names⟩)) (fun _ => False) (· = method) := by
  obtain ⟨hnone, value, place, names, hv, hp, hn, rfl⟩ := markWrapper_ok h
  rw [hm.findWrapperMark?] at hnone
  refine ⟨value, place, names, hv, hp, hn, ⟨⟨fun other => ?_, fun other => ?_, fun row hr => ?_⟩, rfl,
    toList_prefix_push _ _, fun _ _ h => h, fun other mark ho => ?_, fun _ _ h => .inl h,
    fun other mark ho => ?_⟩⟩
  · rw [findMark?_push, hm.index]
    simp [hw.wrapper, Ne.symm hdiffer]
  · rw [findMark?_push, hm.wrapper]
    by_cases he : other = method
    · subst he
      simp [hnone, hw.wrapper]
    · simp [Function.update_of_ne he, Ne.symm he]
  · rcases Array.mem_push.mp hr with hr | rfl
    · exact (hm.settled row hr).extension (.of_attributes none rfl (toList_prefix_push _ _))
    · exact .of_isSome (by rw [attributeType?_attributes, hw.wrapper]; rfl)
  · by_cases he : other = method
    · subst he
      simp [hnone] at ho
    · rwa [Function.update_of_ne he]
  · by_cases he : other = method
    · exact .inr he
    · rw [Function.update_of_ne he] at ho
      exact .inl ho

theorem MarkStep.ready {index' : Token → Option IndexMark} {wrapper' : Token → Option WrapperMark}
    {m w : Token → Prop} (h : MarkStep writer.support before after index index' wrapper wrapper' m w)
    (hw : writer.Ready before) : writer.Ready after :=
  ⟨by rw [h.attributeType?_eq, hw.index], by rw [h.attributeType?_eq, hw.wrapper]⟩

/-- The mark that a wrapper at a position of a record carries. -/
def WrapperMarked (module : Module) (wrapper : Token → Option WrapperMark) (value : Int32)
    (inst : Instantiation) (position : Nat) : Prop :=
  ∃ token place names, inst.wrapper = some token ∧ markNumber position = .ok place ∧
    inst.allArgs.mapM module.reflectionName = .ok names ∧ wrapper token = some ⟨value, place, names⟩

/-- The marks that a record calls for are there. -/
def GenericRecord.Marked (record : GenericRecord) (module : Module) (index : Token → Option IndexMark)
    (wrapper : Token → Option WrapperMark) : Prop :=
  ∀ ordinal, record.ordinal = some ordinal → ∃ value, markNumber ordinal = .ok value ∧
    index record.method = some ⟨value⟩ ∧
    ∀ inst position, (inst, position) ∈ record.instantiations.zipIdx →
      WrapperMarked module wrapper value inst position

theorem WrapperMarked.mono {container : Option Token} {wrappers : List Token} {p : Token → Prop}
    {wrapper' : Token → Option WrapperMark} {value : Int32} {inst : Instantiation} {position : Nat}
    (h : WrapperMarked before wrapper value inst position)
    (he : Module.Extension container wrappers p before after)
    (hkept : ∀ token mark, wrapper token = some mark → wrapper' token = some mark) :
    WrapperMarked after wrapper' value inst position := by
  obtain ⟨token, place, names, ht, hp, hn, hm⟩ := h
  exact ⟨token, place, names, ht, hp, mapM_ok_mono (fun _ _ _ => he.reflectionName) hn, hkept _ _ hm⟩

theorem GenericRecord.Marked.mono {record : GenericRecord} {container : Option Token}
    {wrappers : List Token} {p : Token → Prop} {index' : Token → Option IndexMark}
    {wrapper' : Token → Option WrapperMark} (h : record.Marked before index wrapper)
    (he : Module.Extension container wrappers p before after)
    (hi : ∀ token mark, index token = some mark → index' token = some mark)
    (hw : ∀ token mark, wrapper token = some mark → wrapper' token = some mark) :
    record.Marked after index' wrapper' := by
  intro ordinal ho
  obtain ⟨value, hv, hm, hinst⟩ := h ordinal ho
  exact ⟨value, hv, hi _ _ hm, fun inst position hp => (hinst inst position hp).mono he hw⟩

/-- The wrappers at given positions of a record get their marks. -/
theorem markPositions_step {record : GenericRecord} {ordinal : Nat} {value : Int32}
    {pairs : List (Instantiation × Nat)}
    (hdiffer : writer.support.index.fullName ≠ writer.support.wrapper.fullName)
    (hv : markNumber ordinal = .ok value) (hw : writer.Ready before)
    (hm : Marks writer.support before index wrapper)
    (h : (pairs.forM fun pair => do
        let wrapper ← Edit.inspect fun _ => requireWrapper record pair.2 pair.1
        let _ ← writer.markWrapper wrapper ordinal pair.2 pair.1.allArgs : Edit PUnit) before =
      (.ok ⟨⟩, after)) :
    ∃ wrapper', MarkStep writer.support before after index index wrapper wrapper' (fun _ => False)
        (fun token => ∃ pair ∈ pairs, pair.1.wrapper = some token) ∧
      ∀ pair ∈ pairs, WrapperMarked after wrapper' value pair.1 pair.2 := by
  induction pairs generalizing before wrapper with
  | nil =>
    obtain ⟨-, rfl⟩ := run_pure_eq_ok.mp h
    exact ⟨wrapper, .refl hm _ _, by simp⟩
  | cons pair pairs ih =>
    rw [List.forM_eq_forM, List.forM_cons] at h
    obtain ⟨⟨⟩, middle, hfirst, h⟩ := run_bind_eq_ok.mp h
    obtain ⟨token, ht, hfirst⟩ := Edit.inspect_bind_eq_ok.mp hfirst
    obtain ⟨mark, _, hmark, hend⟩ := run_bind_eq_ok.mp hfirst
    obtain ⟨-, rfl⟩ := run_pure_eq_ok.mp hend
    have hset : pair.1.wrapper = some token := by
      unfold requireWrapper at ht
      split at ht
      · rename_i wrapper hs
        cases ht
        exact hs
      · cases ht
    obtain ⟨value', place, names, hv', hp, hn, hstep⟩ := markWrapper_step hdiffer hw hm hmark
    rw [hv, Except.ok.injEq] at hv'
    subst hv'
    obtain ⟨wrapper', hrest, hall⟩ := ih (hstep.ready hw) hstep.marks h
    refine ⟨wrapper', (hstep.trans hrest).mono (fun _ hf => hf.elim id id) ?_, ?_⟩
    · rintro other (rfl | ⟨last, hl, hs⟩)
      · exact ⟨pair, by simp, hset⟩
      · exact ⟨last, by simp [hl], hs⟩
    · intro other ho
      rcases List.mem_cons.mp ho with rfl | ho
      · refine ⟨token, place, names, hset, hp, ?_, hrest.wrapperKept _ _ (by simp)⟩
        exact mapM_ok_mono (fun _ _ _ => ((hstep.trans hrest).extension none).reflectionName) hn
      · exact hall other ho

/-- A record gets its marks. -/
theorem markRecord_step {record : GenericRecord} {count : Nat}
    (hdiffer : writer.support.index.fullName ≠ writer.support.wrapper.fullName) (hw : writer.Ready before)
    (hm : Marks writer.support before index wrapper)
    (h : markRecord writer record before = (.ok count, after)) :
    ∃ index' wrapper', MarkStep writer.support before after index index' wrapper wrapper'
        (fun token => record.ordinal.isSome ∧ token = record.method)
        (fun token => record.ordinal.isSome ∧ ∃ inst ∈ record.instantiations, inst.wrapper = some token) ∧
      record.Marked after index' wrapper' := by
  unfold markRecord at h
  rcases ho : record.ordinal with - | ordinal
  · rw [ho] at h
    obtain ⟨-, rfl⟩ := run_pure_eq_ok.mp h
    refine ⟨index, wrapper, .refl hm _ _, fun ordinal hs => ?_⟩
    rw [ho] at hs
    cases hs
  · rw [ho] at h
    obtain ⟨mark, first, hfirst, h⟩ := run_bind_eq_ok.mp h
    obtain ⟨⟨⟩, second, hsecond, h⟩ := run_bind_eq_ok.mp h
    obtain ⟨-, rfl⟩ := run_pure_eq_ok.mp h
    obtain ⟨value, hv, hmethod⟩ := markMethod_step hdiffer hw hm hfirst
    obtain ⟨wrapper', hwrappers, hall⟩ :=
      markPositions_step hdiffer hv (hmethod.ready hw) hmethod.marks hsecond
    refine ⟨_, wrapper', (hmethod.trans hwrappers).mono ?_ ?_, fun ordinal' hs => ?_⟩
    · rintro token (rfl | hf)
      · exact ⟨rfl, rfl⟩
      · exact hf.elim
    · rintro token (hf | ⟨pair, hp, ht⟩)
      · exact hf.elim
      · exact ⟨rfl, pair.1, List.fst_mem_of_mem_zipIdx hp, ht⟩
    · rw [ho, Option.some.injEq] at hs
      subst hs
      refine ⟨value, hv, hwrappers.indexKept _ _ (by simp), fun inst position hp => ?_⟩
      exact hall (inst, position) hp

/-- All records get their marks. -/
theorem markAll_step {records : List GenericRecord} {counts : List Nat}
    (hdiffer : writer.support.index.fullName ≠ writer.support.wrapper.fullName) (hw : writer.Ready before)
    (hm : Marks writer.support before index wrapper)
    (h : records.mapM (markRecord writer) before = (.ok counts, after)) :
    ∃ index' wrapper', MarkStep writer.support before after index index' wrapper wrapper'
        (fun token => ∃ record ∈ records, record.ordinal.isSome ∧ token = record.method)
        (fun token => ∃ record ∈ records, record.ordinal.isSome ∧
          ∃ inst ∈ record.instantiations, inst.wrapper = some token) ∧
      ∀ record ∈ records, record.Marked after index' wrapper' := by
  induction records generalizing before index wrapper counts with
  | nil =>
    obtain ⟨-, rfl⟩ := run_pure_eq_ok.mp h
    exact ⟨index, wrapper, .refl hm _ _, by simp⟩
  | cons record records ih =>
    rw [List.mapM_cons] at h
    obtain ⟨count, first, hfirst, h⟩ := run_bind_eq_ok.mp h
    obtain ⟨rest, second, hsecond, h⟩ := run_bind_eq_ok.mp h
    obtain ⟨-, rfl⟩ := run_pure_eq_ok.mp h
    obtain ⟨index', wrapper', hstep, hmarked⟩ := markRecord_step hdiffer hw hm hfirst
    obtain ⟨index'', wrapper'', hrest, hall⟩ := ih (hstep.ready hw) hstep.marks hsecond
    refine ⟨index'', wrapper'', (hstep.trans hrest).mono ?_ ?_, fun other ho => ?_⟩
    · rintro token (hf | ⟨last, hl, hs⟩)
      · exact ⟨record, by simp, hf⟩
      · exact ⟨last, by simp [hl], hs⟩
    · rintro token (hf | ⟨last, hl, hs⟩)
      · exact ⟨record, by simp, hf⟩
      · exact ⟨last, by simp [hl], hs⟩
    · rcases List.mem_cons.mp ho with rfl | ho
      · exact hmarked.mono (hrest.extension none) hrest.indexKept hrest.wrapperKept
      · exact hall other ho

end Steps

section Phase

variable {support : SupportTypes} {before after : Module}

/-- The type that a top-level reference names. -/
theorem fullName_of_typeRef {token : Token} {assembly : String} {name : TypeName}
    (h : before.typeRef? token = some ⟨.assembly assembly, name⟩) : before.fullName token = .ok name.text := by
  rw [Module.fullName, (Module.AtTop.reference h rfl).nestedName]
  rfl

theorem importConstructor_settles (type : SupportType) : type.importConstructor.Settles :=
  (Edit.Settles.addTypeRef _).bind fun _ => .addMemberRef _

/-- The imported constructor belongs to the type that it was imported for. -/
theorem importConstructor_ok {type : SupportType} {constructor : Token}
    (h : type.importConstructor before = (.ok constructor, after)) (hfit : after.RowsFit) :
    before.AddsReferences after ∧ attributeType? after constructor = some type.fullName := by
  obtain ⟨parent, middle, hp, h⟩ := run_bind_eq_ok.mp h
  have hadds := (Edit.Settles.addTypeRef _ _ _ _ hp).1
  have hadds' := (Edit.Settles.addMemberRef _ _ _ _ h).1
  have hmember := Module.memberRef?_addMemberRef (Edit.always_eq_ok.mp h) hfit
  have htype := Module.typeRef?_addTypeRef (Edit.always_eq_ok.mp hp)
    ((hadds'.extension none).grows.rowsFit hfit)
  refine ⟨hadds.trans hadds', ?_⟩
  have hname := (hadds'.extension none).fullName (fullName_of_typeRef htype)
  obtain ⟨hin, -⟩ := rowAt?_eq_some hmember
  rw [attributeType?_eq, attributeOwner?, Token.table_of_isIn hin]
  dsimp only
  rw [hmember, Option.map_some, Option.bind_some, hname]
  rfl

theorem MarkWriter.create_adds {writer : MarkWriter}
    (h : MarkWriter.create support before = (.ok writer, after)) : before.AddsReferences after := by
  obtain ⟨index, first, hi, h⟩ := run_bind_eq_ok.mp h
  obtain ⟨wrapper, second, hw, h⟩ := run_bind_eq_ok.mp h
  obtain ⟨-, rfl⟩ := run_pure_eq_ok.mp h
  exact (importConstructor_settles _ _ _ _ hi).1.trans (importConstructor_settles _ _ _ _ hw).1

theorem create_ready {writer : MarkWriter} (h : MarkWriter.create support before = (.ok writer, after))
    (hfit : after.RowsFit) : before.AddsReferences after ∧ writer.support = support ∧ writer.Ready after := by
  obtain ⟨index, first, hi, h⟩ := run_bind_eq_ok.mp h
  obtain ⟨wrapper, second, hw, h⟩ := run_bind_eq_ok.mp h
  obtain ⟨rfl, rfl⟩ := run_pure_eq_ok.mp h
  obtain ⟨hadds', hwrapper⟩ := importConstructor_ok hw hfit
  obtain ⟨hadds, hindex⟩ := importConstructor_ok hi ((hadds'.extension none).grows.rowsFit hfit)
  exact ⟨hadds.trans hadds', rfl, attributeType?_mono (hadds'.extension none) hindex, hwrapper⟩

theorem mapM_markRecord_within {writer : MarkWriter} (records : List GenericRecord)
    (container : Option Token) :
    Edit.Within (Module.Extension container [] fun _ => False) (records.mapM (markRecord writer)) := by
  have hrefl := Module.Extension.refl container
  have htrans : ∀ a b c, Module.Extension container [] (fun _ => False) a b →
      Module.Extension container [] (fun _ => False) b c →
      Module.Extension container [] (fun _ => False) a c :=
    fun a b c h h' => (h.trans h').mono fun _ hp => hp.elim id id
  have hmethod : ∀ method index, Edit.Within (Module.Extension container [] fun _ => False)
      (writer.markMethod method index) := by
    intro method index before value after h
    obtain ⟨-, _, -, rfl⟩ := markMethod_ok h
    exact .of_attributes container rfl (toList_prefix_push _ _)
  have hwrapper : ∀ wrapper index position args, Edit.Within (Module.Extension container [] fun _ => False)
      (writer.markWrapper wrapper index position args) := by
    intro wrapper index position args before value after h
    obtain ⟨-, _, _, _, -, -, -, rfl⟩ := markWrapper_ok h
    exact .of_attributes container rfl (toList_prefix_push _ _)
  refine Edit.Within.mapM hrefl htrans fun record => ?_
  unfold markRecord
  split
  · exact .pure hrefl _
  · refine (hmethod _ _).bind htrans fun _ => Edit.Within.bind htrans ?_ fun _ => .pure hrefl _
    refine Edit.Within.forM hrefl htrans fun pair => ?_
    refine Edit.Within.bind htrans (.inspect hrefl _) fun wrapper => ?_
    exact (hwrapper _ _ _ _).bind htrans fun _ => .pure hrefl _

/-- Marking adds references and attributes. -/
theorem markRecords_within (records : List GenericRecord) (container : Option Token) :
    Edit.Within (Module.Extension container [] fun _ => False) (markRecords support records) := by
  intro before count after h
  obtain ⟨writer, first, hcreate, h⟩ := run_bind_eq_ok.mp h
  obtain ⟨counts, second, hmark, h⟩ := run_bind_eq_ok.mp h
  obtain ⟨-, rfl⟩ := run_pure_eq_ok.mp h
  have hadds := (MarkWriter.create_adds hcreate).extension container
  exact (hadds.trans (mapM_markRecord_within records container _ _ _ hmark)).mono fun _ hp => hp.elim id id

/-- The marking phase, in a module without marks. -/
theorem markRecords_ok {records : List GenericRecord} {count : Nat}
    (hdiffer : support.index.fullName ≠ support.wrapper.fullName)
    (hm : Marks support before (fun _ => none) fun _ => none) (hfit : after.RowsFit)
    (h : markRecords support records before = (.ok count, after)) :
    ∃ index wrapper, Marks support after index wrapper ∧
      (∀ token mark, index token = some mark →
        ∃ record ∈ records, record.ordinal.isSome ∧ token = record.method) ∧
      (∀ token mark, wrapper token = some mark → ∃ record ∈ records, record.ordinal.isSome ∧
        ∃ inst ∈ record.instantiations, inst.wrapper = some token) ∧
      ∀ record ∈ records, record.Marked after index wrapper := by
  obtain ⟨writer, first, hcreate, h⟩ := run_bind_eq_ok.mp h
  obtain ⟨counts, second, hmark, h⟩ := run_bind_eq_ok.mp h
  obtain ⟨-, rfl⟩ := run_pure_eq_ok.mp h
  have hrest := mapM_markRecord_within records none _ _ _ hmark
  obtain ⟨hadds, rfl, hready⟩ := create_ready hcreate (hrest.grows.rowsFit hfit)
  obtain ⟨index, wrapper, hstep, hall⟩ :=
    markAll_step hdiffer hready (hm.extension (hadds.extension none) hadds.attributes_eq) hmark
  refine ⟨index, wrapper, hstep.marks, fun token mark hi => ?_, fun token mark hw => ?_, hall⟩
  · rcases hstep.indexNew token mark hi with hi | hi
    · cases hi
    · exact hi
  · rcases hstep.wrapperNew token mark hw with hw | hw
    · cases hw
    · exact hw

end Phase
end HotPatch
