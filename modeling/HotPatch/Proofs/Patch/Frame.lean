import HotPatch.Proofs.Patch.MarkRun
import HotPatch.Proofs.Patch.Phases
import HotPatch.Proofs.Patch.TableRun

/-!
# What a run leaves alone

The rewritten module extends the patch: nothing that was there is renumbered or
changed, except for the bodies of the lookup method and of the initializers of
touched types. The container gets the wrappers, in the order of the records,
and no other definition is added.
-/

namespace HotPatch

section Stability

variable {a b : Module} {container : Option Token} {wrappers : List Token} {p q : Token → Prop}
  {config : Config}

namespace Module.Extension

theorem findContainer (h : Extension container wrappers p a b) (hw : a.WellFormed) (hf : a.RowsFit) :
    HotPatch.findContainer config b = HotPatch.findContainer config a := by
  rw [HotPatch.findContainer, HotPatch.findContainer, h.findType? hw hf]

/-- A lookup method that was there before was the lookup method before. -/
theorem findLookupMethod (h : Extension container wrappers p a b) (hw : a.WellFormed) (hfit : b.RowsFit)
    {method : Token} (hm : HotPatch.findLookupMethod config b = .ok method)
    (hs : (a.method? method).isSome) : HotPatch.findLookupMethod config a = .ok method := by
  obtain ⟨owner, ho, hm⟩ := LookupTable.findLookupMethod_eq_ok.mp hm
  rw [h.findType? hw (h.grows.rowsFit hfit)] at ho
  rcases h.findMethod?_cases hw hm with hold | hnew
  · exact LookupTable.findLookupMethod_eq_ok.mpr ⟨owner, ho, hold⟩
  · rw [h.method?_eq_none_of_mem hfit hnew] at hs
    cases hs

/-- The lookup method stays the lookup method. -/
theorem findLookupMethod_mono (h : Extension container wrappers p a b) (hw : a.WellFormed) (hf : a.RowsFit)
    {method : Token} (hm : HotPatch.findLookupMethod config a = .ok method) :
    HotPatch.findLookupMethod config b = .ok method := by
  obtain ⟨owner, ho, hm⟩ := LookupTable.findLookupMethod_eq_ok.mp hm
  exact LookupTable.findLookupMethod_eq_ok.mpr ⟨owner, by rw [h.findType? hw hf, ho], h.findMethod? hw hm⟩

end Module.Extension
end Stability

namespace Phases

variable {context : PatchContext} {collaborators : Collaborators} {name : String} {pipeline : Pipeline}
  (phases : Phases context collaborators name pipeline)

theorem same_modules (hk : collaborators.classifier.KeepsModules) :
    phases.classified.pair.base = phases.pair.base ∧ phases.classified.pair.patch = phases.pair.patch := by
  have h := classifyAll_keeps hk context.config.maxDepth phases.pair.patch.methodTokens { pair := phases.pair }
  rw [phases.classifies] at h
  exact h

theorem neutralized_extension (hk : collaborators.classifier.KeepsModules) (container : Option Token) :
    Module.Extension container [] (· ∈ phases.initializers) phases.pair.patch phases.neutralized := by
  have h := neutralize_extension container phases.neutralizes
  rwa [(phases.same_modules hk).2] at h

/-- The wrappers were generated record by record. -/
theorem generates (hg : collaborators.generator = Wrapper.forward) :
    Numbered 0 phases.scanned phases.wrapped.records ∧ ∃ container,
      (wrappersOf phases.wrapped.records ≠ [] →
        findContainer context.config phases.neutralized = .ok container) ∧
      Generates Wrapper.forward phases.neutralized (recordRequests container 0 phases.scanned)
        (wrappersOf phases.wrapped.records) phases.wrapped.module := by
  obtain ⟨hcount, container, hc, hw⟩ := generateWrappers_ok phases.wraps
  rw [hg] at hw
  obtain ⟨hnumbered, hrun⟩ := wrapRecords_ok hw
  refine ⟨hnumbered, container, fun hne => hc ?_, hrun⟩
  rw [hcount, ← hnumbered.length_wrappers]
  exact mt List.length_eq_zero_iff.mp hne

theorem marked_extension (container : Option Token) :
    Module.Extension container [] (fun _ => False) phases.wrapped.module phases.marked :=
  markRecords_within _ container _ _ _ phases.marking

theorem patched_extension (container : Option Token) :
    Module.Extension container [] (fun token => findLookupMethod context.config phases.marked = .ok token)
      phases.marked phases.patched := by
  rcases phases.table with ⟨-, -, heq⟩ | ⟨entries, he⟩
  · rw [heq]
    exact (Module.Extension.refl container _).mono fun _ hf => hf.elim
  · obtain ⟨emission⟩ := LookupTable.emit_ok he
    refine (emission.extension container).mono ?_
    rintro token rfl
    exact emission.found

/-- The container that wrappers go to, if there is one. -/
def container? (phases : Phases context collaborators name pipeline) : Option Token :=
  (findContainer context.config phases.pair.patch).toOption

theorem patch_rowsFit (hg : collaborators.generator = Wrapper.forward)
    (hk : collaborators.classifier.KeepsModules) (hfit : phases.patched.RowsFit) :
    phases.pair.patch.RowsFit := by
  have hlater := (phases.marked_extension none).trans (phases.patched_extension none)
  obtain ⟨-, container, -, hgenerates⟩ := phases.generates hg
  have hextension := hgenerates.extension fun request hr => container_of_mem_recordRequests hr
  exact (phases.neutralized_extension hk none).grows.rowsFit
    (hextension.grows.rowsFit (hlater.grows.rowsFit hfit))

section Extension

variable (hg : collaborators.generator = Wrapper.forward) (hk : collaborators.classifier.KeepsModules)
  (hw : phases.pair.patch.WellFormed) (hfit : phases.patched.RowsFit)

include hg hk hw hfit

theorem wrapped_extension : Module.Extension phases.container? (wrappersOf phases.wrapped.records)
    (fun _ => False) phases.neutralized phases.wrapped.module := by
  have hneutralized := phases.neutralized_extension hk none
  have hbefore := phases.patch_rowsFit hg hk hfit
  obtain ⟨-, container, hc, hrun⟩ := phases.generates hg
  have hextension := hrun.extension fun request hr => container_of_mem_recordRequests hr
  by_cases hne : wrappersOf phases.wrapped.records = []
  · rw [hne] at hextension ⊢
    exact hextension.of_no_wrappers _
  · have hfound := hc hne
    rw [hneutralized.findContainer hw hbefore] at hfound
    rw [container?, hfound]
    exact hextension

/-- All phases together, up to the marks. -/
theorem extension_marked : Module.Extension phases.container? (wrappersOf phases.wrapped.records)
    (· ∈ phases.initializers) phases.pair.patch phases.marked := by
  have h := ((phases.neutralized_extension hk _).trans (phases.wrapped_extension hg hk hw hfit)).trans
    (phases.marked_extension _)
  rw [List.nil_append, List.append_nil] at h
  refine h.mono fun token hp => ?_
  rcases hp with (hi | hf) | hf
  · exact hi
  · exact hf.elim
  · exact hf.elim

/-- All phases together. -/
theorem extension : Module.Extension phases.container? (wrappersOf phases.wrapped.records)
    (fun token => findLookupMethod context.config phases.pair.patch = .ok token ∨
      Initializes context.config phases.classified.pair.addedTypes
        (phases.classified.map.touchedTypes phases.pair.patch) phases.pair.patch token)
    phases.pair.patch phases.patched := by
  have hmarked := phases.extension_marked hg hk hw hfit
  have h := hmarked.trans (phases.patched_extension _)
  rw [List.append_nil] at h
  refine h.restrict fun token hs hp => ?_
  rcases hp with hi | hl
  · have hi := neutralize_initializers (by rwa [(phases.same_modules hk).2]) phases.neutralizes hi
    rw [(phases.same_modules hk).2] at hi
    exact .inr hi
  · exact .inl (hmarked.findLookupMethod hw ((phases.patched_extension none).grows.rowsFit hfit) hl hs)

/-- The wrappers came of the requests for the records, in the container. -/
theorem forwarded : ∃ container,
    (wrappersOf phases.wrapped.records ≠ [] →
      findContainer context.config phases.pair.patch = .ok container) ∧
    List.Forall₂ (Forwarded phases.marked) (recordRequests container 0 phases.scanned)
      (wrappersOf phases.wrapped.records) := by
  obtain ⟨-, container, hc, hgenerates⟩ := phases.generates hg
  have hlater := (phases.marked_extension none).trans (phases.patched_extension none)
  have hbefore := phases.patch_rowsFit hg hk hfit
  rw [(phases.neutralized_extension hk none).findContainer hw hbefore] at hc
  have hall := hgenerates.forwarded (fun request hr => container_of_mem_recordRequests hr)
    (hlater.grows.rowsFit hfit)
  exact ⟨container, hc, hall.imp fun request wrapper hf => hf.mono (phases.marked_extension none)⟩

end Extension
end Phases

section Run

variable {context : PatchContext} {collaborators : Collaborators} {name : String} {pipeline : Pipeline}

/-- A successful run extends the patch by the wrappers, rewrites the lookup method and the running
initializers of touched types, and leaves everything else as it was. -/
theorem Pipeline.run_frame {pair : ModulePair} (hg : collaborators.generator = Wrapper.forward)
    (hk : collaborators.classifier.KeepsModules) (hd : collaborators.differ name = .ok (.pair pair))
    (hbuilt : pair.patch.Built)
    (hrun : (create name).run context collaborators = (.ok true, pipeline))
    (hfit : ∀ module, pipeline.module? = some module → module.RowsFit) :
    ∃ result, pipeline.pair = some result ∧ result.base = pair.base ∧
      Module.Extension (findContainer context.config pair.patch).toOption (wrappersOf pipeline.records)
        (fun token => findLookupMethod context.config pair.patch = .ok token ∨
          Initializes context.config result.addedTypes (pipeline.map.touchedTypes pair.patch) pair.patch token)
        pair.patch result.patch ∧
      (∀ token, (result.patch.method? token).isSome →
        (pair.patch.method? token).isSome ∨ token ∈ wrappersOf pipeline.records) ∧
      ∀ wrapper ∈ wrappersOf pipeline.records, pair.patch.method? wrapper = none ∧
        ∃ row method ordinal position, result.patch.method? wrapper = some row ∧
          findContainer context.config pair.patch = .ok row.owner ∧
          row.name = wrapperName method ordinal position ∧ row.flags = .wrapper ∧ row.generics = [] := by
  obtain ⟨phases⟩ := run_phases hrun
  obtain rfl : phases.pair = pair := by
    have h := phases.differs
    rw [hd] at h
    cases h
    rfl
  have hpatched : phases.patched.RowsFit := hfit _ (by rw [module?, phases.result]; rfl)
  have hw := hbuilt.wellFormed (phases.patch_rowsFit hg hk hpatched)
  have hextension := phases.extension hg hk hw hpatched
  rw [phases.records, phases.map]
  refine ⟨_, phases.result, (phases.same_modules hk).1, hextension, fun token => hextension.method?_cases,
    fun wrapper hm => ⟨hextension.method?_eq_none_of_mem hpatched hm, ?_⟩⟩
  obtain ⟨container, hc, hall⟩ := phases.forwarded hg hk hw hpatched
  obtain ⟨request, hr, hf⟩ := exists_of_mem_forall₂ hall hm
  obtain ⟨row, method, hrow, -, howner, hname, hflags, hgenerics⟩ := hf.mono (phases.patched_extension none)
  rw [container_of_mem_recordRequests hr] at howner
  exact ⟨row, _, _, _, hrow, by rw [hc (List.ne_nil_of_mem hm), howner], hname, hflags, hgenerics⟩

end Run

/-- Small tables can be checked for their size one after another. -/
theorem rowsFit_of_check {module? : Option Module}
    (h : ∀ table ∈ Table.all, module?.all fun module => module.rowCount table < Token.rowLimit) :
    ∀ after, module? = some after → after.RowsFit := by
  intro after ha table
  have hfit := h table (by cases table <;> decide)
  rw [ha] at hfit
  simpa using hfit

/-!
A run in which every phase has something to do, in a type whose initializer runs:
a generic method with two instantiations, one with none, and one with two type
parameters.
-/

namespace Sample

def config : Config := { wrapperType := "Wrappers", lookupMethod := "Table" }

def support : SupportTypes := ⟨⟨"Share", ⟨"", "Index"⟩⟩, ⟨"Share", ⟨"", "Wrapper"⟩⟩⟩

def container : Token := .ofRow .typeDef 1

def box : Token := .ofRow .typeDef 2

def make : Token := .ofRow .methodDef 2

def idle : Token := .ofRow .methodDef 4

def select : Token := .ofRow .methodDef 5

def dictionary : TypeSig := .generic (.class (.ofRow .typeRef 1)) [.primitive .object, .primitive .object]

def tableMethod : MethodDef where
  owner := container
  name := "Table"
  flags := .static
  sig := { returnType := dictionary }
  body := some { instructions := [{ opcode := .ldnull }, { opcode := .ret }], maxStack := 1 }

def makeMethod : MethodDef where
  owner := box
  name := "Make"
  flags := .static
  sig := { params := [.methodParam 0] }
  generics := ["T"]
  body := some { instructions := [{ opcode := .ret }] }

def initializer : MethodDef where
  owner := box
  name := MethodDef.initializerName
  flags := .typeInitializer
  body := some { instructions := [{ opcode := .nop }, { opcode := .ret }] }

def idleMethod : MethodDef where
  owner := box
  name := "Idle"
  flags := .static
  generics := ["T"]
  body := some { instructions := [{ opcode := .ret }] }

def selectMethod : MethodDef where
  owner := box
  name := "Select"
  flags := .static
  sig := { returnType := .methodParam 1, params := [.methodParam 0, .methodParam 1] }
  generics := ["T", "U"]
  body := some { instructions := [{ opcode := .ldarg1 }, { opcode := .ret }], maxStack := 1 }

def types : Module :=
  ((Module.addTypeRef { name := "Game" } ⟨.assembly "mscorlib", ⟨"System", "Dictionary"⟩⟩).2.withType
    { name := ⟨"", "Wrappers"⟩ }).withType { name := ⟨"", "Box"⟩ }

def methods : Module :=
  ((((types.withMethod tableMethod).withMethod makeMethod).withMethod initializer).withMethod
    idleMethod).withMethod selectMethod

def module : Module :=
  (((methods.addMethodSpec ⟨make, [.primitive .i4]⟩).2.addMethodSpec ⟨make, [.primitive .string]⟩).2.addMethodSpec
    ⟨select, [.primitive .string, .primitive .i4]⟩).2

theorem methods_built : methods.Built :=
  ((((((((Module.Built.new "Game" _).addTypeRef _).withType _).withType _).withMethod _).withMethod
    _).withMethod _).withMethod _).withMethod _

theorem module_built : module.Built := ((methods_built.addMethodSpec _).addMethodSpec _).addMethodSpec _

def records : List GenericRecord :=
  [{ method := make, instantiations :=
      [{ methodArgs := [.primitive .i4], base := .ofRow .methodSpec 1 },
        { methodArgs := [.primitive .string], base := .ofRow .methodSpec 2 }] },
    { method := idle },
    { method := select, instantiations :=
      [{ methodArgs := [.primitive .string, .primitive .i4], base := .ofRow .methodSpec 3 }] }]

/-- The two versions are the same. -/
def pair : ModulePair := { base := module, patch := module }

/-- All methods are classified alike. -/
def collaborators : Collaborators where
  differ _ := .ok (.pair pair)
  scanner _ := .ok records
  classifier method := .record method .hook .done

theorem classifier_keeps : collaborators.classifier.KeepsModules := fun _ _ _ _ => ⟨rfl, rfl⟩

/-- The pipeline after the run. -/
def pipeline : Pipeline := ((Pipeline.create "Game").run ⟨config, support⟩ collaborators).2

theorem run_eq : (Pipeline.create "Game").run ⟨config, support⟩ collaborators = (.ok true, pipeline) :=
  eq_of_toOption (by decide +kernel)

theorem rowsFit : ∀ after, pipeline.module? = some after → after.RowsFit :=
  rowsFit_of_check (by decide +kernel)

end Sample

theorem Pipeline.run_frame_sample : (wrappersOf Sample.pipeline.records).length = 3 ∧
    ∃ result, Sample.pipeline.pair = some result ∧ result.base = Sample.pair.base ∧
      Module.Extension (findContainer Sample.config Sample.pair.patch).toOption
        (wrappersOf Sample.pipeline.records)
        (fun token => findLookupMethod Sample.config Sample.pair.patch = .ok token ∨
          Initializes Sample.config result.addedTypes
            (Sample.pipeline.map.touchedTypes Sample.pair.patch) Sample.pair.patch token)
        Sample.pair.patch result.patch := by
  have hd : Sample.collaborators.differ "Game" = .ok (.pair Sample.pair) := rfl
  obtain ⟨result, hr, hb, hextension, -⟩ := run_frame rfl Sample.classifier_keeps hd Sample.module_built
    Sample.run_eq Sample.rowsFit
  refine ⟨?_, result, hr, hb, hextension⟩
  decide +kernel

end HotPatch
