import HotPatch.Proofs.Patch.Numbering
import HotPatch.Proofs.Patch.SoundPhases

/-!
# A rewritten module can be written

Every phase of a run keeps the patch sound, so the rewritten module can be
written unless a section outgrows its limit. That the wrappers' arguments can be
counted follows from the sections, as the names of as many generic parameters
stand in the tables.
-/

namespace HotPatch

open Image

section Counting

variable {before after : Module} {request : WrapperRequest}

/-- As many arguments are requested as there are generic parameters. -/
def ArgsCounted (module : Module) (request : WrapperRequest) : Prop :=
  ∃ method owner, module.method? request.method = some method ∧ module.typeDef? method.owner = some owner ∧
    owner.generics.length = request.typeArgs.length ∧ method.generics.length = request.methodArgs.length

theorem ArgsCounted.mono {container : Option Token} {wrappers : List Token} {p : Token → Prop}
    (h : ArgsCounted before request) (he : Module.Extension container wrappers p before after) :
    ArgsCounted after request := by
  obtain ⟨method, owner, hm, ho, htypes, hmethods⟩ := h
  obtain ⟨body, hm', -⟩ := he.method _ method hm
  obtain ⟨methods, ho', -⟩ := he.typeDef?_eq_some ho
  exact ⟨_, _, hm', ho', htypes, hmethods⟩

theorem ArgsCounted.length_lt (h : ArgsCounted after request) (hfit : SectionsFit after) :
    (request.typeArgs ++ request.methodArgs).length < 2 ^ 32 := by
  obtain ⟨method, owner, hm, ho, htypes, hmethods⟩ := h
  have hmethod := hfit.generics_lt.2 method (mem_of_rowAt? hm)
  have howner := hfit.generics_lt.1 owner (mem_of_rowAt? ho)
  rw [List.length_append]
  omega

theorem Generates.argsCounted {container : Token} {requests : List WrapperRequest} {wrappers : List Token}
    (h : Generates Wrapper.forward before requests wrappers after)
    (hc : ∀ request ∈ requests, request.container = container) :
    ∀ request ∈ requests, ArgsCounted after request := by
  induction h with
  | nil module => simp
  | @cons before middle after first _ wrapper _ hfirst rest ih =>
    have hrest := rest.extension fun other ho => hc other (by simp [ho])
    refine List.forall_mem_cons.mpr ⟨?_, ih fun other ho => hc other (by simp [ho])⟩
    obtain ⟨target, sig, callee, body, middle, ht, -⟩ := Wrapper.forward_eq_ok.mp hfirst
    have hchecked := Wrapper.target_ok ht
    have hcounted : ArgsCounted before first :=
      ⟨_, _, hchecked.method, hchecked.owner, hchecked.typeArgs, hchecked.methodArgs⟩
    exact (hcounted.mono (Wrapper.forward_extension hfirst)).mono hrest

end Counting

namespace Phases

variable {context : PatchContext} {collaborators : Collaborators} {name : String} {pipeline : Pipeline}
  (phases : Phases context collaborators name pipeline) (hg : collaborators.generator = Wrapper.forward)
  (hk : collaborators.classifier.KeepsModules) (hw : phases.pair.patch.WellFormed)

include hk hw

theorem neutralized_sound (h : Sound phases.pair.patch)
    (hvoid : ∀ method ∈ phases.pair.patch.methods, method.isStaticInitializer → method.sig.returnType.isVoid) :
    Sound phases.neutralized := by
  have hneutralizes := phases.neutralizes
  rw [(phases.same_modules hk).2] at hneutralizes
  have hnothing : ∀ token ∈ phases.initializers, ReturnsNothing phases.pair.patch token := by
    intro token ht
    obtain ⟨row, name, hr, hs, -⟩ := neutralize_initializers hw hneutralizes ht
    exact ⟨row, hr, hvoid row (mem_of_rowAt? hr) hs⟩
  obtain ⟨lists, -, hn⟩ := bind_eq_ok.mp hneutralizes
  obtain ⟨next, hinsert, hn⟩ := bind_eq_ok.mp hn
  obtain ⟨hlists, rfl⟩ : lists.flatten = phases.initializers ∧ next = phases.neutralized := by
    simpa using Except.ok.inj hn
  rw [hlists] at hinsert
  exact h.insertReturns hnothing hinsert

omit hk hw in
include hg in
/-- The arguments of all instantiations can be counted. -/
theorem args_lt (hsections : SectionsFit phases.patched) :
    ∀ record ∈ phases.wrapped.records, ∀ inst ∈ record.instantiations, inst.allArgs.length < 2 ^ 32 := by
  obtain ⟨hnumbered, container, -, hgenerates⟩ := phases.generates hg
  intro record hr inst hi
  have hmem : inst.allArgs ∈ (phases.wrapped.records.flatMap (·.instantiations)).map (·.allArgs) :=
    List.mem_map_of_mem (List.mem_flatMap.mpr ⟨record, hr, hi⟩)
  rw [hnumbered.allArgs, ← recordRequests_allArgs container 0] at hmem
  obtain ⟨request, hrequest, hargs⟩ := List.mem_map.mp hmem
  have hcounted := hgenerates.argsCounted (fun other ho => container_of_mem_recordRequests ho) request hrequest
  have hlater := (phases.marked_extension none).trans (phases.patched_extension none)
  rw [← hargs]
  exact (hcounted.mono hlater).length_lt hsections

include hg

/-- A run keeps the patch sound. -/
theorem patched_sound (hfit : phases.patched.RowsFit) (h : Sound phases.pair.patch)
    (hvoid : ∀ method ∈ phases.pair.patch.methods, method.isStaticInitializer → method.sig.returnType.isVoid)
    (hbase : RowsEncode phases.pair.base)
    (hargs : ∀ record ∈ phases.scanned, ∀ inst ∈ record.instantiations, ValueArgs inst.allArgs)
    (hsections : SectionsFit phases.patched) : Sound phases.patched := by
  obtain ⟨-, container, -, hgenerates⟩ := phases.generates hg
  have hmarkedFit := (phases.patched_extension none).grows.rowsFit hfit
  have hrequests : ∀ request ∈ recordRequests container 0 phases.scanned,
      ValueArgs (request.typeArgs ++ request.methodArgs) := by
    intro request hr
    have hmem := List.mem_map_of_mem (f := fun request : WrapperRequest => request.typeArgs ++ request.methodArgs) hr
    rw [recordRequests_allArgs] at hmem
    obtain ⟨inst, hi, ha⟩ := List.mem_map.mp hmem
    obtain ⟨record, hrecord, hi⟩ := List.mem_flatMap.mp hi
    exact ha ▸ hargs record hrecord inst hi
  have hwrapped := hgenerates.sound (fun request hr => container_of_mem_recordRequests hr) hrequests
    ((phases.marked_extension none).grows.rowsFit hmarkedFit) (phases.neutralized_sound hk hw h hvoid)
  have hmarked := (markRecords_keepsSound (phases.args_lt hg hsections) _ _ _ hwrapped phases.marking).1
  rcases phases.table with ⟨-, -, heq⟩ | ⟨entries, he⟩
  · rwa [heq]
  · obtain ⟨emission⟩ := LookupTable.emit_ok he
    rw [← (phases.same_modules hk).1] at hbase
    exact emission.sound hbase hfit hmarked

end Phases

section Run

variable {context : PatchContext} {collaborators : Collaborators} {name : String} {pipeline : Pipeline}

/-- A run over modules that can be written leaves one that is sound and can be written, as long as
its tables and sections stay below their limits. -/
theorem Pipeline.write_run {pair : ModulePair} (hg : collaborators.generator = Wrapper.forward)
    (hk : collaborators.classifier.KeepsModules) (hd : collaborators.differ name = .ok (.pair pair))
    (hbuilt : pair.patch.Built) (hbase : ∃ written, Image.write pair.base = .ok written)
    (hpatch : ∃ written, Image.write pair.patch = .ok written)
    (hvoid : ∀ method ∈ pair.patch.methods, method.isStaticInitializer → method.sig.returnType.isVoid)
    (hargs : ∀ records, collaborators.scanner pair = .ok records →
      ∀ record ∈ records, ∀ inst ∈ record.instantiations, ValueArgs inst.allArgs)
    (hrun : (create name).run context collaborators = (.ok true, pipeline))
    (hfit : ∀ module, pipeline.module? = some module → module.RowsFit ∧ SectionsFit module) :
    ∃ module written, pipeline.module? = some module ∧ Sound module ∧ pipeline.write = .ok written := by
  obtain ⟨phases⟩ := run_phases hrun
  obtain rfl : phases.pair = pair := by
    have h := phases.differs
    rw [hd] at h
    cases h
    rfl
  have hmodule : pipeline.module? = some phases.patched := by
    rw [module?, phases.result]
    rfl
  obtain ⟨hrows, hsections⟩ := hfit _ hmodule
  have hpatchRows := phases.patch_rowsFit hg hk hrows
  obtain ⟨base, hbase⟩ := hbase
  have hsound := phases.patched_sound hg hk (hbuilt.wellFormed hpatchRows) hrows
    ((exists_write_iff hpatchRows).mp hpatch).1 hvoid (rowsEncode_of_write hbase) (hargs _ phases.scans) hsections
  obtain ⟨written, hwritten⟩ := (exists_write_iff hrows).mpr ⟨hsound, hsections⟩
  refine ⟨_, written, hmodule, hsound, bind_eq_ok.mpr ⟨(), if_pos phases.stage, ?_⟩⟩
  rw [hmodule]
  exact hwritten

end Run

theorem Pipeline.write_run_sample : ∃ module written, Sample.pipeline.module? = some module ∧ Sound module ∧
    Sample.pipeline.write = .ok written := by
  have hwrites : ∀ {module : Module}, (Image.write module).isOk → ∃ written, Image.write module = .ok written := by
    intro module h
    rcases hw : Image.write module with error | written
    · rw [hw] at h
      cases h
    · exact ⟨written, rfl⟩
  have hmodule : ∃ written, Image.write Sample.module = .ok written := hwrites (by decide +kernel)
  refine write_run rfl Sample.classifier_keeps rfl Sample.module_built hmodule hmodule ?_ ?_ Sample.run_eq ?_
  · decide +kernel
  · intro records h record hr inst hi arg ha
    have hall : ∀ record ∈ Sample.records, ∀ inst ∈ record.instantiations, ∀ arg ∈ inst.allArgs,
        arg = .primitive .i4 ∨ arg = .primitive .string := by decide
    cases h
    obtain rfl | rfl := hall record hr inst hi arg ha
    · exact ⟨TypeSig.encodes_primitive .i4, rfl⟩
    · exact ⟨TypeSig.encodes_primitive .string, rfl⟩
  · intro module h
    have hrows := Sample.rowsFit module h
    refine ⟨hrows, ((exists_write_iff hrows).mp (hwrites ?_)).2⟩
    have hall : Sample.pipeline.module?.all fun module => (Image.write module).isOk := by decide +kernel
    rw [h] at hall
    exact hall

end HotPatch
