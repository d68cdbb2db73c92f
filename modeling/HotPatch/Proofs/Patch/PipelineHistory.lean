import HotPatch.Patch.Pipeline
import HotPatch.Proofs.Ensures

/-!
# The life of a pipeline

A pipeline is used through calls: it is run, written and published, in any
order and any number of times. Its stage never moves back. The first run that
gets its two versions compared is the only one that does anything, and only if
that run answers yes can the module be seen, written and published. What the
collaborators answer may differ from one run to the next.
-/

namespace HotPatch

/-- How far a pipeline has come. -/
def Stage.rank : Stage → Nat
  | created => 0
  | initialized => 1
  | classified => 2
  | neutralized => 3
  | wrappersGenerated => 4
  | tableEmitted => 5
  | valid => 6

namespace Pipeline

/-- A use of a pipeline. Each run has collaborators of its own. -/
inductive Call (σ : Type) where
  | run (collaborators : Collaborators)
  | write
  | publish (fs : FileSystem σ) (destination : Path) (tag : String)

inductive Answer where
  | ran (result : Result Bool)
  | wrote (result : Result Image.Written)
  | published (result : Result PublishedPaths)

variable {σ : Type} {context : PatchContext} {collaborators : Collaborators} {name : String}
  {pipeline before after : Pipeline}

/-- Carries a call out on a pipeline and a state that holds files. -/
def Call.perform (context : PatchContext) : Call σ → StateM (Pipeline × σ) Answer
  | .run collaborators => fun (pipeline, files) =>
    let (result, pipeline) := pipeline.run context collaborators
    (.ran result, pipeline, files)
  | .write => fun (pipeline, files) => (.wrote pipeline.write, pipeline, files)
  | .publish fs destination tag => fun (pipeline, files) =>
    let (result, files) := pipeline.publish context fs destination tag files
    (.published result, pipeline, files)

/-- A run whose versions can be compared, whatever comes of it. -/
def Call.PassesDiffer (name : String) : Call σ → Prop
  | .run collaborators => (collaborators.differ name).isOk
  | .write => False
  | .publish _ _ _ => False

section Run

/-- A phase is under way: nothing but what it records has changed since the stage was entered. -/
structure Within (before : Pipeline) (stage : Stage) (after : Pipeline) : Prop where
  name : after.name = before.name
  pair : after.pair = before.pair
  stage : after.stage = stage

theorem enter_ensures {stage : Stage} (h : Within before stage pipeline) (next : Stage)
    {cut : Error → Pipeline → Prop} :
    Ensures (enter next) pipeline (fun _ after => Within before next after) cut :=
  show Within before next { pipeline with stage := next } from ⟨h.name, h.pair, rfl⟩

/-- A phase that leaves name, pair and stage alone, whether it fails or not. -/
def Steady {α : Type} (phase : Phase α) : Prop :=
  ∀ pipeline, Within pipeline pipeline.stage (phase pipeline).2

theorem Steady.ensures {α : Type} {phase : Phase α} {stage : Stage} (h : Steady phase)
    (hw : Within before stage pipeline) :
    Ensures phase pipeline (fun _ after => Within before stage after) (fun _ after => Within before stage after) := by
  have hs := h pipeline
  have hafter : Within before stage (phase pipeline).2 :=
    ⟨hs.name.trans hw.name, hs.pair.trans hw.pair, hs.stage.trans hw.stage⟩
  rw [Ensures]
  rcases hr : phase pipeline with ⟨error | value, after⟩ <;> rw [hr] at hafter
  · exact hafter
  · exact hafter

variable (context collaborators)

theorem classify_steady (pair : ModulePair) : Steady (classify context collaborators pair) := by
  intro pipeline
  unfold classify
  dsimp only
  split
  · exact ⟨rfl, rfl, rfl⟩
  · exact ⟨rfl, rfl, rfl⟩

theorem neutralizeTouched_steady (pair : ModulePair) : Steady (neutralizeTouched context pair) := by
  intro pipeline
  unfold neutralizeTouched
  split
  · exact ⟨rfl, rfl, rfl⟩
  · exact ⟨rfl, rfl, rfl⟩

theorem wrap_steady (pair : ModulePair) : Steady (wrap context collaborators pair) := by
  intro pipeline
  unfold wrap
  dsimp only
  split
  · exact ⟨rfl, rfl, rfl⟩
  · exact ⟨rfl, rfl, rfl⟩

theorem mark_steady (pair : ModulePair) : Steady (mark context pair) := by
  intro pipeline
  unfold mark
  split
  · exact ⟨rfl, rfl, rfl⟩
  · exact ⟨rfl, rfl, rfl⟩

theorem emitTable_steady (pair : ModulePair) : Steady (emitTable context pair) := by
  intro pipeline
  unfold emitTable
  split
  · exact ⟨rfl, rfl, rfl⟩
  · split
    · exact ⟨rfl, rfl, rfl⟩
    · exact ⟨rfl, rfl, rfl⟩

/-- What a failing phase leaves: some later stage than at the start, and no module. -/
structure Interrupted (before after : Pipeline) : Prop where
  name : after.name = before.name
  pair : after.pair = before.pair
  started : Stage.initialized.rank ≤ after.stage.rank
  unfinished : after.stage.rank < Stage.valid.rank

/-- What a run leaves that came to its end. -/
structure Finished (before after : Pipeline) : Prop where
  name : after.name = before.name
  pair : after.pair.isSome
  stage : after.stage = .valid

theorem Within.interrupted {stage : Stage} (h : Within before stage after)
    (hs : Stage.initialized.rank ≤ stage.rank) (hv : stage.rank < Stage.valid.rank) : Interrupted before after :=
  ⟨h.name, h.pair, h.stage ▸ hs, h.stage ▸ hv⟩

/-- The phases after the comparison either all succeed, or leave an interrupted pipeline. -/
theorem process_ensures (pair : ModulePair) (hw : Within before .initialized pipeline) :
    Ensures (process context collaborators pair) pipeline (fun _ after => Finished before after)
      (fun _ after => Interrupted before after) := by
  have hphase : ∀ {α : Type} {phase : Phase α} {stage : Stage} {now : Pipeline}, Steady phase →
      Within before stage now → Stage.initialized.rank ≤ stage.rank → stage.rank < Stage.valid.rank →
      Ensures phase now (fun _ after => Within before stage after) (fun _ after => Interrupted before after) := by
    intro α phase stage now hs hnow hstart hend
    exact (hs.ensures hnow).mono (fun _ _ h => h) fun _ _ h => h.interrupted hstart hend
  unfold process
  have hscan : Steady (process.liftExcept (collaborators.scanner pair)) := fun _ => ⟨rfl, rfl, rfl⟩
  apply (hphase hscan hw (by decide) (by decide)).bind
  intro records now h
  have hset : Steady (modify fun pipeline => { pipeline with records }) := fun _ => ⟨rfl, rfl, rfl⟩
  apply (hphase hset h (by decide) (by decide)).bind
  intro _ now h
  apply (hphase (classify_steady context collaborators pair) h (by decide) (by decide)).bind
  intro classified now h
  apply (enter_ensures h .classified).bind
  intro _ now h
  apply (hphase (neutralizeTouched_steady context classified) h (by decide) (by decide)).bind
  intro neutralized now h
  apply (enter_ensures h .neutralized).bind
  intro _ now h
  apply (hphase (wrap_steady context collaborators neutralized) h (by decide) (by decide)).bind
  intro wrapped now h
  apply (hphase (mark_steady context wrapped) h (by decide) (by decide)).bind
  intro marked now h
  apply (enter_ensures h .wrappersGenerated).bind
  intro _ now h
  apply (hphase (emitTable_steady context marked) h (by decide) (by decide)).bind
  intro patched now h
  show Finished before { now with pair := some patched, stage := .valid }
  exact ⟨h.name, rfl, rfl⟩

/-- The ways in which a run can end. -/
inductive RunEnd (before : Pipeline) : Result Bool → Pipeline → Prop where
  | refused (hs : before.stage ≠ .created) :
    RunEnd before (.error (.wrongStage before.name before.stage .created)) before
  | unreadable {error : Error} (hs : before.stage = .created)
    (hd : collaborators.differ before.name = .error error) : RunEnd before (.error error) before
  | incompatible {reason : String} (hs : before.stage = .created)
    (hd : collaborators.differ before.name = .ok (.incompatible reason)) :
    RunEnd before (.ok false) { before with stage := .initialized }
  | interrupted {pair : ModulePair} {error : Error} {after : Pipeline} (hs : before.stage = .created)
    (hd : collaborators.differ before.name = .ok (.pair pair)) (h : Interrupted before after) :
    RunEnd before (.error error) after
  | finished {pair : ModulePair} {after : Pipeline} (hs : before.stage = .created)
    (hd : collaborators.differ before.name = .ok (.pair pair)) (h : Finished before after) :
    RunEnd before (.ok true) after

theorem run_end (pipeline : Pipeline) : RunEnd collaborators pipeline
    (pipeline.run context collaborators).1 (pipeline.run context collaborators).2 := by
  unfold run requireStage
  by_cases hs : pipeline.stage = .created
  · rw [if_pos hs]
    dsimp only
    rcases hd : collaborators.differ pipeline.name with error | pair | reason
    · exact .unreadable hs hd
    · have hp := process_ensures context collaborators pair
        (show Within pipeline .initialized { pipeline with stage := .initialized } from ⟨rfl, rfl, rfl⟩)
      rw [Ensures] at hp
      dsimp only
      rcases hr : process context collaborators pair { pipeline with stage := .initialized } with
        ⟨error | ⟨⟩, after⟩ <;> rw [hr] at hp
      · exact .interrupted hs hd hp
      · exact .finished hs hd hp
    · exact .incompatible hs hd
  · rw [if_neg hs]
    exact .refused hs

end Run

section History

/-- What the calls so far tell about a pipeline. -/
structure Remembers (name : String) (calls : List (Call σ)) (answers : List Answer) (pipeline : Pipeline) :
    Prop where
  name_eq : pipeline.name = name
  fresh : pipeline.stage = .created → pipeline = create name
  passed : pipeline.stage ≠ .created ↔ ∃ call ∈ calls, call.PassesDiffer name
  valid : pipeline.stage = .valid ↔ .ran (.ok true) ∈ answers
  visible : pipeline.pair.isSome ↔ pipeline.stage = .valid
  incompatible : .ran (.ok false) ∈ answers → pipeline = { create name with stage := .initialized }

theorem Remembers.create (name : String) : Remembers (σ := σ) name [] [] (create name) where
  name_eq := rfl
  fresh _ := rfl
  passed := by simp [Pipeline.create]
  valid := by simp [Pipeline.create]
  visible := by simp [Pipeline.create]
  incompatible h := by cases h

variable {calls : List (Call σ)} {answers : List Answer}

/-- A call that does nothing to the pipeline is remembered without effect. -/
theorem Remembers.idle (h : Remembers name calls answers pipeline) {call : Call σ} {answer : Answer}
    (hc : call.PassesDiffer name → pipeline.stage ≠ .created) (ha : ∀ result, answer ≠ .ran (.ok result)) :
    Remembers name (calls ++ [call]) (answers ++ [answer]) pipeline where
  name_eq := h.name_eq
  fresh := h.fresh
  passed := by
    rw [h.passed] at hc ⊢
    simp only [List.mem_append, List.mem_singleton, or_and_right, exists_or, exists_eq_left]
    exact ⟨.inl, fun h => h.elim id hc⟩
  valid := by
    rw [h.valid, List.mem_append, List.mem_singleton, or_iff_left (Ne.symm (ha true))]
  visible := h.visible
  incompatible hm := by
    rw [List.mem_append, List.mem_singleton, or_iff_left (Ne.symm (ha false))] at hm
    exact h.incompatible hm

/-- However a run ends, the pipeline remembers it. -/
theorem Remembers.ran (h : Remembers name calls answers pipeline) {result : Result Bool}
    (hr : RunEnd collaborators pipeline result after) :
    Remembers name (calls ++ [.run collaborators]) (answers ++ [.ran result]) after := by
  have hpassed : ∀ {outcome : DiffOutcome}, collaborators.differ pipeline.name = .ok outcome →
      ∃ call ∈ calls ++ [Call.run collaborators], call.PassesDiffer name := by
    intro outcome hd
    rw [h.name_eq] at hd
    exact ⟨.run collaborators, by simp, by simp [Call.PassesDiffer, hd, Except.isOk, Except.toBool]⟩
  -- As long as the pipeline is new, no run has answered.
  have hnew : pipeline.stage = .created →
      .ran (.ok true) ∉ answers ∧ .ran (.ok false) ∉ answers ∧ pipeline.pair = none := by
    intro hs
    refine ⟨fun hm => ?_, fun hm => ?_, ?_⟩
    · rw [h.valid.mpr hm] at hs
      cases hs
    · rw [h.incompatible hm] at hs
      cases hs
    · rw [h.fresh hs]
      rfl
  cases hr with
  | refused hs => exact h.idle (fun _ => hs) fun result => by simp
  | @unreadable error hs hd =>
    refine h.idle (fun hc => ?_) fun result => by simp
    rw [Call.PassesDiffer, ← h.name_eq, hd] at hc
    cases hc
  | @incompatible reason hs hd =>
    obtain ⟨hv, -, hp⟩ := hnew hs
    refine ⟨h.name_eq, by simp, ⟨fun _ => hpassed hd, by simp⟩, by simp [hv], by simp [hp], fun _ => ?_⟩
    rw [h.fresh hs]
  | @interrupted pair error after hs hd hi =>
    obtain ⟨hv, hf, hp⟩ := hnew hs
    have hstarted := hi.started
    have hunfinished := hi.unfinished
    have hnot : after.stage ≠ .created ∧ after.stage ≠ .valid := by
      constructor
      · intro he
        rw [he] at hstarted
        revert hstarted
        decide
      · intro he
        rw [he] at hunfinished
        revert hunfinished
        decide
    refine ⟨hi.name.trans h.name_eq, fun he => absurd he hnot.1, ⟨fun _ => hpassed hd, fun _ => hnot.1⟩,
      by simp [hnot.2, hv], by simp [hi.pair, hp, hnot.2], by simp [hf]⟩
  | @finished pair after hs hd hf =>
    obtain ⟨-, hno, -⟩ := hnew hs
    refine ⟨hf.name.trans h.name_eq, by simp [hf.stage], ⟨fun _ => hpassed hd, by simp [hf.stage]⟩,
      by simp [hf.stage], by simp [hf.stage, hf.pair], by simp [hno]⟩

/-- Each call is remembered. -/
theorem Remembers.perform (h : Remembers name calls answers pipeline) (context : PatchContext) (call : Call σ)
    (files : σ) : Remembers name (calls ++ [call]) (answers ++ [(call.perform context (pipeline, files)).1])
      (call.perform context (pipeline, files)).2.1 := by
  cases call with
  | run collaborators => exact h.ran (run_end context collaborators pipeline)
  | write => exact h.idle (fun hc => hc.elim) fun result => nofun
  | publish fs destination tag => exact h.idle (fun hc => hc.elim) fun result => nofun

/-- So is a sequence of calls. -/
theorem Remembers.performAll (h : Remembers name calls answers pipeline) (context : PatchContext)
    (more : List (Call σ)) (files : σ) :
    Remembers name (calls ++ more) (answers ++ (more.mapM (Call.perform context) (pipeline, files)).1)
      (more.mapM (Call.perform context) (pipeline, files)).2.1 := by
  induction more generalizing calls answers pipeline files with
  | nil =>
    rw [List.mapM_nil, List.append_nil]
    change Remembers name calls (answers ++ []) pipeline
    rwa [List.append_nil]
  | cons call more ih =>
    have hrest := ih (h.perform context call files) (call.perform context (pipeline, files)).2.2
    rw [List.append_assoc, List.append_assoc] at hrest
    rw [List.mapM_cons, state_bind_apply, state_bind_apply]
    exact hrest

/-- The stage of a run does not move back. -/
theorem RunEnd.rank_le {result : Result Bool} (h : RunEnd collaborators pipeline result after) :
    pipeline.stage.rank ≤ after.stage.rank := by
  cases h with
  | refused => exact le_rfl
  | unreadable => exact le_rfl
  | incompatible hs => simp [hs, Stage.rank]
  | interrupted hs => simp [hs, Stage.rank]
  | finished hs => simp [hs, Stage.rank]

theorem Call.rank_le (call : Call σ) (context : PatchContext) (pipeline : Pipeline) (files : σ) :
    pipeline.stage.rank ≤ (call.perform context (pipeline, files)).2.1.stage.rank := by
  cases call with
  | run collaborators => exact (run_end context collaborators pipeline).rank_le
  | write => exact le_rfl
  | publish fs destination tag => exact le_rfl

theorem rank_le_performAll (context : PatchContext) (calls : List (Call σ)) (pipeline : Pipeline) (files : σ) :
    pipeline.stage.rank ≤ (calls.mapM (Call.perform context) (pipeline, files)).2.1.stage.rank := by
  induction calls generalizing pipeline files with
  | nil => exact le_rfl
  | cons call calls ih =>
    rw [List.mapM_cons, state_bind_apply, state_bind_apply]
    exact (call.rank_le context pipeline files).trans (ih _ _)

theorem write_refused (hs : pipeline.stage ≠ .valid) :
    pipeline.write = .error (.wrongStage pipeline.name pipeline.stage .valid) := by
  rw [write, requireStage, if_neg hs]
  rfl

theorem publish_refused (hs : pipeline.stage ≠ .valid) (fs : FileSystem σ) (destination : Path) (tag : String)
    (files : σ) : pipeline.publish context fs destination tag files =
      (.error (.wrongStage pipeline.name pipeline.stage .valid), files) := by
  rw [publish, write_refused hs]
  rfl

theorem run_refused (hs : pipeline.stage ≠ .created) (context : PatchContext) (collaborators : Collaborators) :
    pipeline.run context collaborators =
      (.error (.wrongStage pipeline.name pipeline.stage .created), pipeline) := by
  rw [run, requireStage, if_neg hs]

theorem run_eq_false_iff : (pipeline.run context collaborators).1 = .ok false ↔
    pipeline.stage = .created ∧ ∃ reason, collaborators.differ pipeline.name = .ok (.incompatible reason) := by
  have hend := run_end context collaborators pipeline
  constructor
  · intro h
    rcases hr : pipeline.run context collaborators with ⟨result, after⟩
    obtain rfl : result = .ok false := by simpa [hr] using h
    rw [hr] at hend
    cases hend with
    | incompatible hs hd => exact ⟨hs, _, hd⟩
  · rintro ⟨hs, reason, hd⟩
    rw [run, requireStage, if_pos hs]
    dsimp only
    rw [hd]

/-- A pipeline that was only used through calls keeps to the order of its stages. `answers`, `pipeline`
and `files` are what the calls have led to. -/
structure Disciplined (context : PatchContext) (name : String) (calls : List (Call σ)) (answers : List Answer)
    (pipeline : Pipeline) (files : σ) : Prop where
  /-- The stage never moves back. -/
  forward : ∀ more : List (Call σ),
    pipeline.stage.rank ≤ (more.mapM (Call.perform context) (pipeline, files)).2.1.stage.rank
  valid : pipeline.stage = .valid ↔ .ran (.ok true) ∈ answers
  module_visible : pipeline.module?.isSome ↔ pipeline.stage = .valid
  base_visible : pipeline.base?.isSome ↔ pipeline.stage = .valid
  write_refused : pipeline.stage ≠ .valid →
    pipeline.write = .error (.wrongStage name pipeline.stage .valid)
  /-- No file system is touched before the stage is valid. -/
  publish_refused : pipeline.stage ≠ .valid → ∀ {τ : Type} (fs : FileSystem τ) (destination : Path)
    (tag : String) (state : τ), pipeline.publish context fs destination tag state =
      (.error (.wrongStage name pipeline.stage .valid), state)
  incompatible_iff : ∀ collaborators, (pipeline.run context collaborators).1 = .ok false ↔
    pipeline.stage = .created ∧ ∃ reason, collaborators.differ name = .ok (.incompatible reason)
  /-- Versions that cannot be patched leave a new pipeline behind, but for its stage. -/
  incompatible : .ran (.ok false) ∈ answers → pipeline = { create name with stage := .initialized }
  /-- Once versions were compared, the collaborators of later runs do not matter. -/
  once : (∃ call ∈ calls, call.PassesDiffer name) → ∀ collaborators, pipeline.run context collaborators =
    (.error (.wrongStage name pipeline.stage .created), pipeline)
  unreadable : ∀ collaborators error, pipeline.stage = .created → collaborators.differ name = .error error →
    pipeline.run context collaborators = (.error error, pipeline)

/-- Whatever is called, and whatever the collaborators of each run answer, a pipeline is disciplined. -/
theorem calls_disciplined (context : PatchContext) (name : String) (calls : List (Call σ)) (files : σ) :
    Disciplined context name calls (calls.mapM (Call.perform context) (create name, files)).1
      (calls.mapM (Call.perform context) (create name, files)).2.1
      (calls.mapM (Call.perform context) (create name, files)).2.2 := by
  have h := (Remembers.create name).performAll context calls files
  rw [List.nil_append, List.nil_append] at h
  constructor
  case forward => exact fun more => rank_le_performAll context more _ _
  case valid => exact h.valid
  case module_visible => rw [module?, Option.isSome_map, h.visible]
  case base_visible => rw [base?, Option.isSome_map, h.visible]
  case write_refused =>
    intro hs
    rw [Pipeline.write_refused hs, h.name_eq]
  case publish_refused =>
    intro hs τ fs destination tag state
    rw [Pipeline.publish_refused hs, h.name_eq]
  case incompatible_iff =>
    intro collaborators
    rw [run_eq_false_iff, h.name_eq]
  case incompatible => exact h.incompatible
  case once =>
    intro hp collaborators
    rw [run_refused (h.passed.mpr hp), h.name_eq]
  case unreadable =>
    intro collaborators error hs hd
    rw [← h.name_eq] at hd
    rw [run, requireStage, if_pos hs]
    dsimp only
    rw [hd]

end History
end Pipeline
end HotPatch
