import HotPatch.Patch.Pipeline
import HotPatch.Proofs.Patch.ClassifyFrame
import HotPatch.Proofs.Patch.WrapperRun

/-!
# Phases of a successful run

A run that comes to its end went through all phases. What each phase worked on
and what it left is laid down once, and later arguments go through the phases
one after another.
-/

namespace HotPatch

variable {context : PatchContext} {collaborators : Collaborators} {name : String} {pipeline : Pipeline}

/-- Without instantiations, no wrappers are generated. -/
theorem wrapRecords_of_empty {generator : WrapperGenerator} {container : Token}
    {records : List GenericRecord} {ordinals : OrdinalAllocator} {module : Module}
    (h : ∀ record ∈ records, record.instantiations = []) :
    wrapRecords generator container records ordinals module = (.ok (), ⟨module, records, ordinals⟩) := by
  induction records with
  | nil => rfl
  | cons record records ih =>
    have hempty := h record (by simp)
    rw [wrapRecords, if_pos (by rw [hempty]; rfl), ih fun other ho => h other (by simp [ho])]

/-- The generation of wrappers is a run over the records. If there is anything to generate, it takes
place in the container. -/
theorem generateWrappers_ok {config : Config} {generator : WrapperGenerator} {state state' : WrapperState}
    {count : Nat} (h : generateWrappers config generator state = (.ok count, state')) :
    count = (state.records.map (·.instantiations.length)).sum ∧
      ∃ container, (count ≠ 0 → findContainer config state.module = .ok container) ∧
        wrapRecords generator container state.records state.ordinals state.module = (.ok (), state') := by
  unfold generateWrappers at h
  rw [List.length_flatMap] at h
  dsimp only at h
  split_ifs at h with hz
  · cases h
    refine ⟨hz.symm, default, fun hne => absurd rfl hne, wrapRecords_of_empty fun record hr => ?_⟩
    rw [List.sum_eq_zero_iff] at hz
    exact List.length_eq_zero_iff.mp (hz _ (List.mem_map_of_mem hr))
  · rcases hc : findContainer config state.module with error | container <;> rw [hc] at h
    · cases h
    · dsimp only at h
      rcases hw : wrapRecords generator container state.records state.ordinals state.module with
        ⟨error | ⟨⟩, last⟩ <;> rw [hw] at h
      · cases h
      · cases h
        exact ⟨rfl, container, fun _ => rfl, hw⟩

/-- What the phases of a run worked on. -/
structure Phases (context : PatchContext) (collaborators : Collaborators) (name : String)
    (pipeline : Pipeline) where
  /-- The versions that are compared. -/
  pair : ModulePair
  scanned : List GenericRecord
  /-- The state that classification leaves. -/
  classified : ClassifyState
  initializers : List Token
  neutralized : Module
  count : Nat
  wrapped : WrapperState
  marks : Nat
  marked : Module
  patched : Module
  differs : collaborators.differ name = .ok (.pair pair)
  scans : collaborators.scanner pair = .ok scanned
  classifies : classifyAll collaborators.classifier context.config.maxDepth pair.patch.methodTokens
    { pair } = (.ok (), classified)
  neutralizes : neutralize context.config (classified.map.touchedTypes classified.pair.patch)
    classified.pair.addedTypes classified.pair.patch = .ok (initializers, neutralized)
  wraps : generateWrappers context.config collaborators.generator ⟨neutralized, scanned, {}⟩ =
    (.ok count, wrapped)
  marking : markRecords context.support wrapped.records wrapped.module = (.ok marks, marked)
  table : count = 0 ∧ (findLookupMethod context.config marked).isOk = false ∧ patched = marked ∨
    ∃ entries, LookupTable.emit context.config classified.pair.base wrapped.records marked =
      (.ok entries, patched)
  result : pipeline.pair = some { classified.pair with patch := patched }
  records : pipeline.records = wrapped.records
  map : pipeline.map = classified.map
  stage : pipeline.stage = .valid

namespace Pipeline

/-- What the phase takes over from the classification of all methods, whether it succeeds or not. -/
theorem classify_eq {pair : ModulePair} {result : Result ModulePair} {before after : Pipeline}
    (h : classify context collaborators pair before = (result, after)) :
    ∃ state, classifyAll collaborators.classifier context.config.maxDepth pair.patch.methodTokens
        { pair, map := before.map, visits := before.visits } = (result.map fun _ => (), state) ∧
      (∀ classified, result = .ok classified → classified = state.pair) ∧ after.map = state.map ∧
      after.visits = state.visits ∧ after.records = before.records ∧ after.ordinals = before.ordinals := by
  unfold classify at h
  dsimp only at h
  rcases hc : classifyAll collaborators.classifier context.config.maxDepth pair.patch.methodTokens
    { pair, map := before.map, visits := before.visits } with ⟨error | ⟨⟩, state⟩ <;> rw [hc] at h <;> cases h
  · exact ⟨state, rfl, nofun, rfl, rfl, rfl, rfl⟩
  · exact ⟨state, rfl, fun _ hk => (Except.ok.inj hk).symm, rfl, rfl, rfl, rfl⟩

theorem neutralizeTouched_ok {pair pair' : ModulePair} {before after : Pipeline}
    (h : neutralizeTouched context pair before = (.ok pair', after)) :
    ∃ initializers patch, neutralize context.config (before.map.touchedTypes pair.patch) pair.addedTypes
        pair.patch = .ok (initializers, patch) ∧ pair' = { pair with patch } ∧
      after.map = before.map ∧ after.records = before.records ∧ after.ordinals = before.ordinals := by
  unfold neutralizeTouched at h
  split at h
  · rename_i initializers patch hn
    cases h
    exact ⟨initializers, patch, hn, rfl, rfl, rfl, rfl⟩
  · cases h

theorem wrap_ok {pair pair' : ModulePair} {before after : Pipeline}
    (h : wrap context collaborators pair before = (.ok pair', after)) :
    ∃ count state, generateWrappers context.config collaborators.generator
        ⟨pair.patch, before.records, before.ordinals⟩ = (.ok count, state) ∧
      pair' = { pair with patch := state.module } ∧ after.map = before.map ∧
      after.records = state.records ∧ after.report.wrappers = count := by
  unfold wrap at h
  dsimp only at h
  rcases hw : generateWrappers context.config collaborators.generator
    ⟨pair.patch, before.records, before.ordinals⟩ with ⟨error | count, state⟩ <;> rw [hw] at h
  · cases h
  · cases h
    exact ⟨count, state, rfl, rfl, rfl, rfl, rfl⟩

theorem mark_ok {pair pair' : ModulePair} {before after : Pipeline}
    (h : mark context pair before = (.ok pair', after)) :
    ∃ marks patch, markRecords context.support before.records pair.patch = (.ok marks, patch) ∧
      pair' = { pair with patch } ∧ after.map = before.map ∧ after.records = before.records ∧
      after.report.wrappers = before.report.wrappers := by
  unfold mark at h
  split at h
  · rename_i marks patch hm
    cases h
    exact ⟨marks, patch, hm, rfl, rfl, rfl, rfl⟩
  · cases h

theorem emitTable_ok {pair pair' : ModulePair} {before after : Pipeline}
    (h : emitTable context pair before = (.ok pair', after)) :
    ∃ patch, (before.report.wrappers = 0 ∧ (findLookupMethod context.config pair.patch).isOk = false ∧
          patch = pair.patch ∨
        ∃ entries, LookupTable.emit context.config pair.base before.records pair.patch =
          (.ok entries, patch)) ∧
      pair' = { pair with patch } ∧ after.map = before.map ∧ after.records = before.records := by
  unfold emitTable at h
  split_ifs at h with hs
  · cases h
    exact ⟨pair.patch, .inl ⟨hs.1, by simpa using hs.2, rfl⟩, rfl, rfl, rfl⟩
  · split at h
    · rename_i entries patch he
      cases h
      exact ⟨patch, .inr ⟨entries, he⟩, rfl, rfl, rfl⟩
    · cases h

/-- A run that answers yes went through its phases. -/
theorem run_phases (h : (create name).run context collaborators = (.ok true, pipeline)) :
    Nonempty (Phases context collaborators name pipeline) := by
  unfold run at h
  rw [show (create name).requireStage .created = .ok () from rfl] at h
  dsimp only at h
  split at h
  · cases h
  · cases h
  · rename_i pair hd
    split at h
    · rename_i last hp
      cases h
      obtain ⟨scanned, s₁, hscan, hp⟩ := run_bind_eq_ok.mp hp
      obtain ⟨⟨⟩, s₂, hset, hp⟩ := run_bind_eq_ok.mp hp
      obtain ⟨first, s₃, hclassify, hp⟩ := run_bind_eq_ok.mp hp
      obtain ⟨⟨⟩, s₄, henter, hp⟩ := run_bind_eq_ok.mp hp
      obtain ⟨second, s₅, hneutralize, hp⟩ := run_bind_eq_ok.mp hp
      obtain ⟨⟨⟩, s₆, henter', hp⟩ := run_bind_eq_ok.mp hp
      obtain ⟨third, s₇, hwrap, hp⟩ := run_bind_eq_ok.mp hp
      obtain ⟨fourth, s₈, hmark, hp⟩ := run_bind_eq_ok.mp hp
      obtain ⟨⟨⟩, s₉, henter'', hp⟩ := run_bind_eq_ok.mp hp
      obtain ⟨fifth, s₁₀, htable, hp⟩ := run_bind_eq_ok.mp hp
      cases hp
      cases hset
      cases henter
      cases henter'
      cases henter''
      obtain ⟨hs, rfl⟩ : collaborators.scanner pair = .ok scanned ∧ _ = s₁ :=
        ⟨congrArg Prod.fst hscan, congrArg Prod.snd hscan⟩
      obtain ⟨classified, hc, hpair, hm₁, -, hr₁, ho₁⟩ := classify_eq hclassify
      obtain rfl := hpair first rfl
      obtain ⟨initializers, neutralized, hn, rfl, hm₂, hr₂, ho₂⟩ := neutralizeTouched_ok hneutralize
      obtain ⟨count, wrapped, hw, rfl, hm₃, hr₃, hcount⟩ := wrap_ok hwrap
      obtain ⟨marks, marked, hk, rfl, hm₄, hr₄, hcount'⟩ := mark_ok hmark
      obtain ⟨patched, ht, rfl, hm₅, hr₅⟩ := emitTable_ok htable
      have hmap : s₅.map = classified.map := hm₂.trans hm₁
      have hrecords : s₅.records = scanned := hr₂.trans hr₁
      have hordinals : s₅.ordinals = {} := ho₂.trans ho₁
      have hgiven : s₈.records = wrapped.records := hr₄.trans hr₃
      exact ⟨{
        pair, scanned, classified, initializers, neutralized, count, wrapped, marks, marked, patched
        differs := hd
        scans := hs
        classifies := hc
        neutralizes := hm₁ ▸ hn
        wraps := by
          rw [← hrecords, ← hordinals]
          exact hw
        marking := hr₃ ▸ hk
        table := by
          rw [← hgiven, ← hcount, ← hcount']
          exact ht
        result := rfl
        records := hr₅.trans hgiven
        map := hm₅.trans (hm₄.trans (hm₃.trans hmap))
        stage := rfl }⟩
    · cases h

end Pipeline
end HotPatch
