import HotPatch.Patch.Classify
import HotPatch.Patch.Report

/-!
# Patching one module

A pipeline obtains the two versions of a module and takes the new one through
classification, neutralization, wrappers and lookup table. It runs once; only a
run that comes to its end makes the rewritten module visible, to be written or
published. What the earlier phases of a failed run recorded stays visible.
-/

namespace HotPatch

/-- The outcome of a comparison: a pair to work on, or why the versions cannot be patched. -/
inductive DiffOutcome where
  | pair (pair : ModulePair)
  | incompatible (reason : String)

/-- The parts that are supplied from outside. -/
structure Collaborators where
  differ : String → Result DiffOutcome
  scanner : ModulePair → Result (List GenericRecord)
  classifier : Classifier
  generator : WrapperGenerator := Wrapper.forward

/-- What all patches share. -/
structure PatchContext where
  config : Config
  support : SupportTypes
  deriving DecidableEq, Repr

def PatchContext.create (config : Config) (support : Module) : Result PatchContext :=
  return ⟨config, ← SupportTypes.resolve config support⟩

structure Pipeline where
  name : String
  stage : Stage := .created
  pair : Option ModulePair := none
  map : ClassificationMap := {}
  visits : List Visit := []
  records : List GenericRecord := []
  ordinals : OrdinalAllocator := {}
  report : Report

namespace Pipeline

def create (name : String) : Pipeline := { name, report := { module := name } }

/-- The rewritten module. -/
def module? (pipeline : Pipeline) : Option Module := pipeline.pair.map (·.patch)

/-- The version that was patched. -/
def base? (pipeline : Pipeline) : Option Module := pipeline.pair.map (·.base)

/-- Name, stage and number of records, for a log. -/
def text (pipeline : Pipeline) : String :=
  "PatchPipeline \x7b module_name: " ++ Text.quoted pipeline.name ++ ", state: " ++
    pipeline.stage.name ++ ", records: " ++ toString pipeline.records.length ++ ", .. \x7d"

def requireStage (pipeline : Pipeline) (expected : Stage) : Result Unit :=
  if pipeline.stage = expected then .ok ()
  else .error (.wrongStage pipeline.name pipeline.stage expected)

/-- A phase that may fail half-way: the pipeline is kept as it is at that point. -/
abbrev Phase (α : Type) := ExceptT Error (StateM Pipeline) α

variable (context : PatchContext) (collaborators : Collaborators)

def enter (stage : Stage) : Phase Unit := modify fun pipeline => { pipeline with stage }

def classify (pair : ModulePair) : Phase ModulePair := fun pipeline =>
  let start : ClassifyState := { pair, map := pipeline.map, visits := pipeline.visits }
  let (result, state) := classifyAll collaborators.classifier context.config.maxDepth
    pair.patch.methodTokens start
  let pipeline := { pipeline with map := state.map, visits := state.visits }
  match result with
  | .ok () =>
    let report := Report.ofClassification pipeline.name state.pair.patch state.map
    (.ok state.pair, { pipeline with report })
  | .error error => (.error error, pipeline)

def neutralizeTouched (pair : ModulePair) : Phase ModulePair := fun pipeline =>
  match neutralize context.config (pipeline.map.touchedTypes pair.patch) pair.addedTypes pair.patch with
  | .ok (neutralized, patch) =>
    (.ok { pair with patch }, { pipeline with report := { pipeline.report with neutralized } })
  | .error error => (.error error, pipeline)

def wrap (pair : ModulePair) : Phase ModulePair := fun pipeline =>
  let (result, state) := generateWrappers context.config collaborators.generator
    ⟨pair.patch, pipeline.records, pipeline.ordinals⟩
  let pipeline := { pipeline with records := state.records, ordinals := state.ordinals }
  match result with
  | .ok wrappers =>
    (.ok { pair with patch := state.module }, { pipeline with report := { pipeline.report with wrappers } })
  | .error error => (.error error, pipeline)

def mark (pair : ModulePair) : Phase ModulePair := fun pipeline =>
  match markRecords context.support pipeline.records pair.patch with
  | (.ok marks, patch) =>
    (.ok { pair with patch }, { pipeline with report := { pipeline.report with marks } })
  | (.error error, _) => (.error error, pipeline)

/-- Without wrappers, a module need not have a lookup method. -/
def emitTable (pair : ModulePair) : Phase ModulePair := fun pipeline =>
  if pipeline.report.wrappers = 0 ∧ !(findLookupMethod context.config pair.patch).isOk then
    (.ok pair, pipeline)
  else
    match LookupTable.emit context.config pair.base pipeline.records pair.patch with
    | (.ok entries, patch) =>
      (.ok { pair with patch }, { pipeline with report := { pipeline.report with entries } })
    | (.error error, _) => (.error error, pipeline)

/-- All phases on a pair of versions. -/
def process (pair : ModulePair) : Phase Unit := do
  let records ← liftExcept (collaborators.scanner pair)
  modify fun pipeline => { pipeline with records }
  let pair ← classify context collaborators pair
  enter .classified
  let pair ← neutralizeTouched context pair
  enter .neutralized
  let pair ← wrap context collaborators pair
  let pair ← mark context pair
  enter .wrappersGenerated
  let pair ← emitTable context pair
  modify fun pipeline => { pipeline with pair := some pair, stage := .valid }
where
  liftExcept {α : Type} (result : Result α) : Phase α := fun pipeline => (result, pipeline)

/-- Runs a new pipeline. Answers whether the versions can be patched. -/
def run (pipeline : Pipeline) : Result Bool × Pipeline :=
  match pipeline.requireStage .created with
  | .error error => (.error error, pipeline)
  | .ok () =>
    match collaborators.differ pipeline.name with
    | .error error => (.error error, pipeline)
    | .ok (.incompatible _) => (.ok false, { pipeline with stage := .initialized })
    | .ok (.pair pair) =>
      match process context collaborators pair { pipeline with stage := .initialized } with
      | (.ok (), pipeline) => (.ok true, pipeline)
      | (.error error, pipeline) => (.error error, pipeline)

/-- Writes the rewritten module. -/
def write (pipeline : Pipeline) : Result Image.Written := do
  pipeline.requireStage .valid
  match pipeline.module? with
  | some module => Image.write module
  | none => .error (.wrongStage pipeline.name pipeline.stage .valid)

/-- Writes the rewritten module and publishes the pair. -/
def publish {σ : Type} (fs : FileSystem σ) (pipeline : Pipeline) (destination : Path) (tag : String) :
    StateM σ (Result PublishedPaths) := do
  match pipeline.write with
  | .ok written => Publish.publish fs context.config.extensions destination written tag
  | .error error => return .error error

end Pipeline
end HotPatch
