import HotPatch.Proofs.Patch.Frame
import HotPatch.Proofs.Patch.Numbering

/-!
# What a run brings about

After a successful run the records with instantiations are numbered in their
order, their methods and wrappers carry the marks that say so, and the lookup
table leads from the imported references to the wrappers. This holds for a patch
without marks whose attributes have types that stay what they are.
-/

namespace HotPatch

/-- No attribute of one of the two types is there, and none can turn into one, since the type name of no
attribute breaks off at a type reference that is missing. -/
structure Unmarked (support : SupportTypes) (module : Module) : Prop where
  index : ∀ row ∈ module.attributes, attributeType? module row.constructor ≠ some support.index.fullName
  wrapper : ∀ row ∈ module.attributes,
    attributeType? module row.constructor ≠ some support.wrapper.fullName
  settled : ∀ row ∈ module.attributes, ∀ owner, attributeOwner? module row.constructor = some owner →
    module.NameSettled owner

section Unmarked

variable {support : SupportTypes} {module module' : Module} {container : Option Token}
  {wrappers : List Token} {p : Token → Prop}

theorem attributeOwner?_of_constructs {constructor : Token} (h : module.Constructs constructor) :
    (attributeOwner? module constructor).isSome := by
  have hrow : ∀ {α : Type} {table : Table} {rows : Array α}, constructor.isIn table →
      module.contains constructor → module.rowCount table = rows.size →
      (rowAt? table rows constructor).isSome := by
    intro α table rows hin hc hsize
    have hcode : constructor.tableCode ≠ userStringCode := by
      intro he
      have hcode : constructor.tableCode = table.code := by simpa [Token.isIn] using hin
      rw [hcode] at he
      cases table <;> cases he
    simp only [Module.contains, Token.table_of_isIn hin, if_neg hcode, Option.any_some, Bool.and_eq_true,
      decide_eq_true_eq, bne_iff_ne, ne_eq] at hc
    rw [rowAt?, if_pos ⟨hin, hc.1⟩, Array.getElem?_eq_getElem (by omega)]
    rfl
  obtain ⟨hin | hin, hc⟩ := h
  · rw [attributeOwner?, Token.table_of_isIn hin]
    dsimp only
    rw [Module.methodOwner?, Option.isSome_map]
    exact hrow hin hc rfl
  · rw [attributeOwner?, Token.table_of_isIn hin]
    dsimp only
    rw [Option.isSome_map]
    exact hrow hin hc rfl

/-- The types of the attributes that are there stay the same. -/
theorem Unmarked.attributeType?_eq (h : Unmarked support module) (hb : module.Built)
    (he : Module.Extension container wrappers p module module') {row : CustomAttribute}
    (hr : row ∈ module.attributes) :
    attributeType? module' row.constructor = attributeType? module row.constructor := by
  obtain ⟨owner, ho⟩ := Option.isSome_iff_exists.mp (attributeOwner?_of_constructs (hb.constructs hr))
  rw [HotPatch.attributeType?_eq, HotPatch.attributeType?_eq, ho, attributeOwner?_mono he ho,
    Option.bind_some, Option.bind_some, he.fullName_settled (h.settled row hr owner ho)]

/-- Without new attributes, there are no marks. -/
theorem Unmarked.marks (h : Unmarked support module) (hb : module.Built)
    (he : Module.Extension container wrappers p module module')
    (ha : module'.attributes = module.attributes) :
    Marks support module' (fun _ => none) fun _ => none := by
  have hnone : ∀ method type, (∀ row ∈ module.attributes,
      attributeType? module row.constructor ≠ some type.fullName) →
      findMark? module' method type = none := by
    intro method type hfree
    rw [findMark?, Module.attributesOf, ha, Option.map_eq_none_iff, List.find?_eq_none]
    intro row hr
    have hm : row ∈ module.attributes := by simpa using List.mem_of_mem_filter hr
    rw [h.attributeType?_eq hb he hm]
    simpa using hfree row hm
  refine ⟨fun method => hnone method _ h.index, fun method => hnone method _ h.wrapper,
    fun row hr rewritten later hl => ?_⟩
  rw [ha] at hr
  rw [h.attributeType?_eq hb he hr, h.attributeType?_eq hb (he.trans (hl.of_no_wrappers container)) hr]

end Unmarked

theorem markNumber_ok {number : Nat} {value : Int32} (h : markNumber number = .ok value) :
    number < 2 ^ 31 ∧ value = .ofNat number := by
  unfold markNumber at h
  split_ifs at h with hlt
  · cases h
    exact ⟨hlt, rfl⟩
  · cases h

/-- A wrapper as it stands in the rewritten module, for the instantiation at a position of a record. -/
def WrapperPlaced (config : Config) (support : SupportTypes) (module : Module) (record : GenericRecord)
    (ordinal position : Nat) (inst : Instantiation) (wrapper : Token) : Prop :=
  ∃ row method names, module.method? wrapper = some row ∧ module.method? record.method = some method ∧
    findContainer config module = .ok row.owner ∧ row.name = wrapperName method.name ordinal position ∧
    inst.allArgs.mapM module.reflectionName = .ok names ∧
    findWrapperMark? support module wrapper = some ⟨.ofNat ordinal, .ofNat position, names⟩

/-- What a successful run brings about. -/
structure RunOutcome (context : PatchContext) (base before after : Module)
    (scanned records : List GenericRecord) : Prop where
  /-- The records are the scanned ones, apart from numbers and wrappers. -/
  bare : records.map (·.bare) = scanned.map (·.bare)
  numbered : ∀ (ordinal : Nat) record, (filled records)[ordinal]? = some record →
    ordinal < 2 ^ 31 ∧ record.ordinal = some ordinal ∧
      findIndexMark? context.support after record.method = some ⟨.ofNat ordinal⟩
  wrapped : ∀ (ordinal position : Nat) record inst, (filled records)[ordinal]? = some record →
    record.instantiations[position]? = some inst → position < 2 ^ 31 ∧ ∃ wrapper,
      inst.wrapper = some wrapper ∧
      WrapperPlaced context.config context.support after record ordinal position inst wrapper
  fresh : ∀ wrapper ∈ wrappersOf records, before.method? wrapper = none
  distinct : (wrappersOf records).Nodup
  named : ((wrappersOf records).map (methodName? after)).Nodup
  empty : ∀ record ∈ records, record.instantiations = [] → record.ordinal = none
  indexed : ∀ method mark, findIndexMark? context.support after method = some mark →
    ∃ record ∈ filled records, record.method = method
  marked : ∀ method mark, findWrapperMark? context.support after method = some mark →
    method ∈ wrappersOf records
  /-- The lookup table, which may be missing if it would be empty. -/
  table : ∃ entries, List.Forall₂ (fun inst entry => inst.wrapper = some entry.wrapper ∧
      base.importMethod inst.base after = (.ok entry.base, after)) (records.flatMap (·.instantiations)) entries ∧
    (entries.map (·.base)).Nodup ∧
    (entries ≠ [] ∨ (findLookupMethod context.config after).isOk →
      LookupTable.read context.config after = .ok entries)

namespace Phases

variable {context : PatchContext} {collaborators : Collaborators} {name : String} {pipeline : Pipeline}
  (phases : Phases context collaborators name pipeline)

section Steps

variable (hg : collaborators.generator = Wrapper.forward) (hk : collaborators.classifier.KeepsModules)

include hg hk

/-- Until marks are written, no attribute is added. -/
theorem wrapped_attributes : phases.wrapped.module.attributes = phases.pair.patch.attributes := by
  obtain ⟨-, container, -, hgenerates⟩ := phases.generates hg
  rw [hgenerates.attributes_eq, neutralize_attributes phases.neutralizes, (phases.same_modules hk).2]

variable (hw : phases.pair.patch.WellFormed) (hfit : phases.patched.RowsFit)

include hw hfit

theorem marked_wellFormed : phases.marked.WellFormed := by
  refine hw.extension (phases.extension_marked hg hk hw hfit) fun wrapper hm => ?_
  obtain ⟨container, hc, hall⟩ := phases.forwarded hg hk hw hfit
  have hfound := hc (List.ne_nil_of_mem hm)
  obtain ⟨request, hr, row, method, hrow, -, howner, -⟩ := exists_of_mem_forall₂ hall hm
  rw [container_of_mem_recordRequests hr] at howner
  refine ⟨row, hrow, by rw [container?, hfound, howner]; rfl, ?_⟩
  rw [howner]
  unfold HotPatch.findContainer at hfound
  split at hfound
  · rename_i token ht
    cases hfound
    exact Module.typeDef?_of_findType? (phases.patch_rowsFit hg hk hfit) ht
  · cases hfound

/-- The lookup table holds the wrappers under the imported references. -/
theorem table_outcome : ∃ entries, List.Forall₂ (fun inst entry => inst.wrapper = some entry.wrapper ∧
      phases.pair.base.importMethod inst.base phases.patched = (.ok entry.base, phases.patched))
      (phases.wrapped.records.flatMap (·.instantiations)) entries ∧
    (entries.map (·.base)).Nodup ∧
    (entries ≠ [] ∨ (findLookupMethod context.config phases.patched).isOk →
      LookupTable.read context.config phases.patched = .ok entries) := by
  rcases phases.table with ⟨hcount, hno, heq⟩ | ⟨entries, he⟩
  · have hempty : phases.wrapped.records.flatMap (·.instantiations) = [] := by
      rw [← List.length_eq_zero_iff, List.length_flatMap, (phases.generates hg).1.lengths,
        ← (generateWrappers_ok phases.wraps).1, hcount]
    refine ⟨[], by rw [hempty]; exact .nil, by simp, fun h => ?_⟩
    rw [heq, hno] at h
    simp at h
  · obtain ⟨emission⟩ := LookupTable.emit_ok he
    obtain ⟨hnodup, hall⟩ := emission.entries_ok
    rw [(phases.same_modules hk).1] at hall
    refine ⟨entries, hall.imp fun inst entry h => ⟨h.1, h.2 _ (.refl _)⟩, hnodup, fun _ => ?_⟩
    obtain ⟨row, -, hrow⟩ := emission.method_body
    have hfound := (emission.extension none).findLookupMethod_mono (phases.marked_wellFormed hg hk hw hfit)
      ((emission.extension none).grows.rowsFit hfit) emission.found
    refine bind_eq_ok.mpr ⟨emission.method, hfound, ?_⟩
    rw [hrow, Option.bind_some]
    dsimp only
    rw [LookupTable.body_ok emission.assembled, LookupTable.readBody_tableCode]
    rfl

/-- A wrapper stands in the container of the rewritten module, under the name that its number gives it. -/
theorem wrapper_row {ordinal position : Nat} {record : GenericRecord} {inst : Instantiation} {wrapper : Token}
    (hr : (filled phases.wrapped.records)[ordinal]? = some record)
    (hi : record.instantiations[position]? = some inst) (ht : inst.wrapper = some wrapper) :
    ∃ row method, phases.patched.method? wrapper = some row ∧ phases.patched.method? record.method = some method ∧
      findContainer context.config phases.patched = .ok row.owner ∧
      row.name = wrapperName method.name ordinal position := by
  obtain ⟨container, hc, hall⟩ := phases.forwarded hg hk hw hfit
  have hforwarded := hall.imp fun request wrapper hf => hf.mono (phases.patched_extension none)
  obtain ⟨other, ht', hz⟩ := (phases.generates hg).1.requested container hr hi
  rw [ht, Option.some.injEq] at ht'
  subst ht'
  rw [Nat.zero_add] at hz
  obtain ⟨row, method, hrow, hmethod, howner, hname, -, -⟩ := List.forall₂_zip hforwarded hz
  refine ⟨row, method, hrow, hmethod, ?_, hname⟩
  have hin : wrapper ∈ wrappersOf phases.wrapped.records := (List.of_mem_zip hz).2
  rw [(phases.extension hg hk hw hfit).findContainer hw (phases.patch_rowsFit hg hk hfit),
    hc (List.ne_nil_of_mem hin), howner]
  rfl

/-- No two wrappers have the same name. -/
theorem wrappers_named : ((wrappersOf phases.wrapped.records).map (methodName? phases.patched)).Nodup := by
  obtain ⟨container, -, hall⟩ := phases.forwarded hg hk hw hfit
  exact nodup_names (hall.imp fun request wrapper hf => hf.mono (phases.patched_extension none))
    (recordRequests_apart container 0 phases.scanned)

end Steps

/-- All phases together bring the outcome about. -/
theorem outcome (hg : collaborators.generator = Wrapper.forward)
    (hk : collaborators.classifier.KeepsModules) (hbuilt : phases.pair.patch.Built)
    (hfit : phases.patched.RowsFit)
    (hdiffer : context.support.index.fullName ≠ context.support.wrapper.fullName)
    (hunmarked : Unmarked context.support phases.pair.patch)
    (hnew : ∀ record ∈ phases.scanned, record.ordinal = none) :
    RunOutcome context phases.pair.base phases.pair.patch phases.patched phases.scanned
      phases.wrapped.records := by
  have hw := hbuilt.wellFormed (phases.patch_rowsFit hg hk hfit)
  have hextension := phases.extension hg hk hw hfit
  have hpatched := phases.patched_extension none
  obtain ⟨hnumbered, -⟩ := phases.generates hg
  have hnames := phases.wrappers_named hg hk hw hfit
  have hunset := hunmarked.marks hbuilt
    ((phases.neutralized_extension hk _).trans (phases.wrapped_extension hg hk hw hfit))
    (phases.wrapped_attributes hg hk)
  obtain ⟨index, wrapper, hmarks, hindex, hwrapper, hmarked⟩ :=
    markRecords_ok hdiffer hunset (hpatched.grows.rowsFit hfit) phases.marking
  have hattributes : phases.patched.attributes = phases.marked.attributes := by
    rcases phases.table with ⟨-, -, heq⟩ | ⟨entries, he⟩
    · rw [heq]
    · obtain ⟨emission⟩ := LookupTable.emit_ok he
      exact emission.attributes_eq
  have hfinal := hmarks.extension hpatched hattributes
  have hset := hnumbered.ordinal_isSome hnew
  have hnumber : ∀ (ordinal : Nat) record, (filled phases.wrapped.records)[ordinal]? = some record →
      record ∈ phases.wrapped.records ∧ record.ordinal = some ordinal := by
    intro ordinal record hr
    have ho := hnumbered.ordinal hr
    rw [Nat.zero_add] at ho
    exact ⟨List.mem_of_mem_filter (List.mem_of_getElem? hr), ho⟩
  refine ⟨hnumbered.bare, fun ordinal record hr => ?_, fun ordinal position record inst hr hi => ?_,
    fun wrapper hm => hextension.method?_eq_none_of_mem hfit hm, hnames.of_map _, hnames,
    fun record hr hempty => ?_, fun method mark hm => ?_, fun method mark hm => ?_,
    phases.table_outcome hg hk hw hfit⟩
  · obtain ⟨hmem, ho⟩ := hnumber ordinal record hr
    obtain ⟨value, hv, hi, -⟩ := hmarked record hmem ordinal ho
    obtain ⟨hlt, rfl⟩ := markNumber_ok hv
    exact ⟨hlt, ho, by rw [hfinal.findIndexMark?, hi]⟩
  · obtain ⟨hmem, ho⟩ := hnumber ordinal record hr
    obtain ⟨value, hv, -, hplaced⟩ := hmarked record hmem ordinal ho
    obtain ⟨-, rfl⟩ := markNumber_ok hv
    obtain ⟨token, place, names, ht, hp, hn, hm⟩ :=
      hplaced inst position (List.mem_zipIdx_iff_getElem?.mpr hi)
    obtain ⟨hlt, rfl⟩ := markNumber_ok hp
    refine ⟨hlt, token, ht, ?_⟩
    obtain ⟨row, method, hrow, hmethod, hcontainer, hname⟩ := phases.wrapper_row hg hk hw hfit hr hi ht
    refine ⟨row, method, names, hrow, hmethod, hcontainer, hname, ?_, by rw [hfinal.findWrapperMark?, hm]⟩
    exact mapM_ok_mono (fun _ _ _ => hpatched.reflectionName) hn
  · by_contra hne
    exact (hset record hr).mp (Option.ne_none_iff_isSome.mp hne) hempty
  · rw [hfinal.findIndexMark?] at hm
    obtain ⟨record, hr, hs, rfl⟩ := hindex method mark hm
    refine ⟨record, List.mem_filter.mpr ⟨hr, ?_⟩, rfl⟩
    simpa using (hset record hr).mp hs
  · rw [hfinal.findWrapperMark?] at hm
    obtain ⟨record, hr, -, inst, hi, ht⟩ := hwrapper method mark hm
    exact List.mem_flatMap.mpr ⟨record, hr, List.mem_filterMap.mpr ⟨inst, hi, ht⟩⟩

end Phases
section Run

variable {context : PatchContext} {collaborators : Collaborators} {name : String} {pipeline : Pipeline}

/-- What a successful run brings about in a patch without marks. -/
theorem Pipeline.run_outcome {pair : ModulePair} {scanned : List GenericRecord}
    (hg : collaborators.generator = Wrapper.forward) (hk : collaborators.classifier.KeepsModules)
    (hd : collaborators.differ name = .ok (.pair pair)) (hs : collaborators.scanner pair = .ok scanned)
    (hnew : ∀ record ∈ scanned, record.ordinal = none) (hbuilt : pair.patch.Built)
    (hdiffer : context.support.index.fullName ≠ context.support.wrapper.fullName)
    (hunmarked : Unmarked context.support pair.patch)
    (hrun : (create name).run context collaborators = (.ok true, pipeline))
    (hfit : ∀ module, pipeline.module? = some module → module.RowsFit) :
    ∃ after, pipeline.module? = some after ∧
      RunOutcome context pair.base pair.patch after scanned pipeline.records := by
  obtain ⟨phases⟩ := run_phases hrun
  obtain rfl : phases.pair = pair := by
    have h := phases.differs
    rw [hd] at h
    cases h
    rfl
  obtain rfl : phases.scanned = scanned := by
    have h := phases.scans
    rw [hs] at h
    cases h
    rfl
  have hresult : pipeline.module? = some phases.patched := by
    rw [module?, phases.result]
    rfl
  rw [phases.records]
  exact ⟨_, hresult, phases.outcome hg hk hbuilt (hfit _ hresult) hdiffer hunmarked hnew⟩

end Run

theorem Sample.unmarked : Unmarked support pair.patch := by
  have hattributes : pair.patch.attributes = #[] := Array.eq_empty_of_size_eq_zero (by decide +kernel)
  refine ⟨?_, ?_, ?_⟩ <;> simp [hattributes]

theorem Pipeline.run_outcome_sample : ∃ after, Sample.pipeline.module? = some after ∧
    RunOutcome ⟨Sample.config, Sample.support⟩ Sample.pair.base Sample.pair.patch after Sample.records
      Sample.pipeline.records := by
  have hd : Sample.collaborators.differ "Game" = .ok (.pair Sample.pair) := rfl
  have hs : Sample.collaborators.scanner Sample.pair = .ok Sample.records := rfl
  exact run_outcome rfl Sample.classifier_keeps hd hs (by decide) Sample.module_built (by decide)
    Sample.unmarked Sample.run_eq Sample.rowsFit

/-!
An attribute whose type is missing can become a mark: the import of the keys
adds a type of the base module that has the name of an attribute type.
-/

namespace Missing

open Sample (config support container box make tableMethod makeMethod)

/-- The base version declares a type with the name of the index attribute. -/
def base : Module :=
  ((Module.withType { name := "Game" } { name := ⟨"", "Index"⟩ }).withType { name := ⟨"", "Box"⟩ }).withMethod
    { owner := box, name := "Make", flags := .static,
      sig := { params := [.class (.ofRow .typeDef 1)] } }

/-- The type of the attribute is a reference that is not there yet. -/
def constructor : MemberRef := ⟨.ofRow .typeRef 5, MethodDef.constructorName, SupportType.constructorSig⟩

def patch : Module :=
  Module.withAttribute
    (Module.addMemberRef ((Sample.types.withMethod tableMethod).withMethod makeMethod) constructor).2
    ⟨make, .ofRow .memberRef 1, (IndexMark.mk 7).value⟩

def pair : ModulePair := { base, patch }

def records : List GenericRecord :=
  [{ method := make, instantiations := [{ methodArgs := [.primitive .i4], base := .ofRow .methodDef 1 }] }]

def collaborators : Collaborators where
  differ _ := .ok (.pair pair)
  scanner _ := .ok records
  classifier _ := .done

def pipeline : Pipeline := ((Pipeline.create "Game").run ⟨config, support⟩ collaborators).2

theorem base_built : base.Built := (((Module.Built.new "Game" _).withType _).withType _).withMethod _

theorem patch_built : patch.Built :=
  ((((((Module.Built.new "Game" _).addTypeRef _).withType _).withType _).withMethod _).withMethod
    _ |>.addMemberRef _).withAttribute _

theorem run_eq : (Pipeline.create "Game").run ⟨config, support⟩ collaborators = (.ok true, pipeline) :=
  eq_of_toOption (by decide +kernel)

theorem typeless : ∀ row ∈ pair.patch.attributes, attributeType? pair.patch row.constructor = none := by
  have h : pair.patch.attributes.toList.all fun row =>
      (attributeType? pair.patch row.constructor).isNone := by
    decide +kernel
  intro row hr
  simpa using List.all_eq_true.mp h row (by simpa using hr)

/-- The attribute is taken for the mark of the method. -/
theorem findIndexMark?_eq : (pipeline.module?.bind fun after => findIndexMark? support after make) =
    some ⟨7⟩ := by
  decide +kernel

end Missing

/-- It is not enough that no attribute has one of the two types beforehand. -/
theorem Pipeline.run_outcome_fails_for_missing_types :
    ¬ ∀ (context : PatchContext) (collaborators : Collaborators) (name : String) (pipeline : Pipeline)
      (pair : ModulePair) (scanned : List GenericRecord), collaborators.generator = Wrapper.forward →
      collaborators.classifier.KeepsModules → collaborators.differ name = .ok (.pair pair) →
      collaborators.scanner pair = .ok scanned → (∀ record ∈ scanned, record.ordinal = none) →
      pair.base.Built → pair.patch.Built →
      context.support.index.fullName ≠ context.support.wrapper.fullName →
      (∀ row ∈ pair.patch.attributes,
        attributeType? pair.patch row.constructor ≠ some context.support.index.fullName ∧
          attributeType? pair.patch row.constructor ≠ some context.support.wrapper.fullName) →
      (create name).run context collaborators = (.ok true, pipeline) →
      (∀ module, pipeline.module? = some module → module.RowsFit) →
      ∃ after, pipeline.module? = some after ∧
        RunOutcome context pair.base pair.patch after scanned pipeline.records := by
  intro h
  have hd : Missing.collaborators.differ "Game" = .ok (.pair Missing.pair) := rfl
  have hs : Missing.collaborators.scanner Missing.pair = .ok Missing.records := rfl
  obtain ⟨after, ha, houtcome⟩ := h ⟨Sample.config, Sample.support⟩ Missing.collaborators "Game"
    Missing.pipeline Missing.pair Missing.records rfl (fun _ _ _ _ => ⟨rfl, rfl⟩) hd hs (by decide)
    Missing.base_built Missing.patch_built (by decide)
    (fun row hr => by rw [Missing.typeless row hr]; exact ⟨nofun, nofun⟩) Missing.run_eq (rowsFit_of_check (by decide +kernel))
  have hfirst : ((filled Missing.pipeline.records)[0]?.map (·.method)) = some Sample.make := by
    decide +kernel
  obtain ⟨record, hr, hmethod⟩ := Option.map_eq_some_iff.mp hfirst
  obtain ⟨-, -, hmark⟩ := houtcome.numbered 0 record hr
  have hwrong := Missing.findIndexMark?_eq
  rw [ha, Option.bind_some, ← hmethod, hmark] at hwrong
  cases hwrong

end HotPatch
