import HotPatch.Patch.Pipeline
import HotPatch.Proofs.Patch.ClassificationSteps
import HotPatch.Proofs.Patch.Frame

/-!
# Every method is classified once

A classifier gives a verdict on the method that it is invoked for before it asks
for another one. So a method that was visited has a verdict, unless it is the one
that is being looked at right now, and a method with a verdict is not visited
again. Calls may form cycles and meet in the same method.
-/

namespace HotPatch

/-- What a procedure has still to do for a method, which has its verdict already or not. The procedure records
its method, and no other, before it asks for another method. It need not record a method on which it fails,
if failures of called methods are passed on. -/
inductive Procedure.Disciplined (refuses : Bool) (method : Token) : Bool → Procedure → Prop
  | done : Disciplined refuses method true .done
  | fail {recorded : Bool} {error : Error} (h : recorded = true ∨ refuses = true) :
    Disciplined refuses method recorded (.fail error)
  | inspect {recorded : Bool} {next : ClassifyState → Procedure}
    (h : ∀ state, Disciplined refuses method recorded (next state)) :
    Disciplined refuses method recorded (.inspect next)
  | record {recorded : Bool} {kind : Classification} {next : Procedure}
    (h : Disciplined refuses method true next) : Disciplined refuses method recorded (.record method kind next)
  | edit {recorded : Bool} {change : ModulePair → ModulePair} {next : Procedure}
    (h : Disciplined refuses method recorded next) : Disciplined refuses method recorded (.edit change next)
  | deeper {callee : Token} {next : Result Unit → Procedure}
    (h : ∀ result, Disciplined refuses method true (next result))
    (hpass : refuses = true → ∀ error, ∃ passed, next (.error error) = .fail passed) :
    Disciplined refuses method true (.deeper callee next)

/-- Every method gets a verdict before others are asked for. -/
def Classifier.Disciplined (classifier : Classifier) : Prop :=
  ∃ refuses, ∀ method, (classifier method).Disciplined refuses method false

/-- The classifier that gives each method a verdict and then follows its calls in the listed order. -/
def Classifier.ofCalls (kind : Token → Classification) (calls : Token → List Token) : Classifier :=
  fun method => Prescription.procedure { verdicts := [kind method], callees := calls method } method

theorem Prescription.followCalls_disciplined (refuses : Bool) (method : Token) (callees : List Token) :
    (followCalls callees).Disciplined refuses method true := by
  induction callees with
  | nil => exact .done
  | cons callee callees ih =>
    refine .deeper (fun result => ?_) fun _ error => ⟨error, rfl⟩
    rcases result with error | ⟨⟩
    · exact .fail (.inl rfl)
    · exact ih

theorem Classifier.ofCalls_disciplined (kind : Token → Classification) (calls : Token → List Token) :
    (ofCalls kind calls).Disciplined :=
  ⟨true, fun method => .record (Prescription.followCalls_disciplined true method (calls method))⟩

/-- How often a method was classified. -/
def invocations (visits : List Visit) (method : Token) : Nat := (visits.map (·.method)).count method

/-- Each of the listed methods was classified exactly once and every other one at most once, none of them too
deep, and exactly the methods that were classified have a verdict, the strongest of their own. -/
structure ClassifiedOnce (methods : List Token) (maxDepth : Nat) (verdicts : List (Token × Classification))
    (map : ClassificationMap) (visits : List Visit) : Prop where
  listed : ∀ method ∈ methods, invocations visits method = 1
  once : ∀ method, invocations visits method ≤ 1
  depth : ∀ visit ∈ visits, visit.depth ≤ maxDepth
  contains : ∀ method, map.contains method ↔ invocations visits method = 1
  strongest : ∀ method kind, map.find? method = some kind ↔ Strongest verdicts method kind

namespace Moment

/-- The methods that the classifier was invoked for. -/
def visited (moment : Moment) : List Token := moment.state.visits.map (·.method)

/-- The procedure that goes on behind a called method is disciplined. -/
def Resumes (refuses : Bool) (moment : Moment) (next : Result Unit → Procedure) : Prop :=
  ∃ method ∈ moment.visited, (∀ result, (next result).Disciplined refuses method true) ∧
    (refuses = true → ∀ error, ∃ passed, next (.error error) = .fail passed)

/-- Where the current procedure stands. Only the method that it is about may lack a verdict, unless a failure
goes all the way up. -/
inductive Phase (refuses : Bool) (moment : Moment) : Prop
  | idle (current : moment.current = .done) (all : ∀ method ∈ moment.visited, moment.state.map.contains method)
  | settled {method : Token} (mem : method ∈ moment.visited)
    (current : moment.current.Disciplined refuses method true)
    (all : ∀ method ∈ moment.visited, moment.state.map.contains method)
  | fresh {method : Token} (mem : method ∈ moment.visited)
    (current : moment.current.Disciplined refuses method false)
    (others : ∀ other ∈ moment.visited, other = method ∨ moment.state.map.contains other)
  | failing {error : Error} (refuse : refuses = true) (current : moment.current = .fail error)

/-- What holds at every moment. -/
structure Orderly (refuses : Bool) (maxDepth : Nat) (methods : List Token) (moment : Moment) : Prop where
  map_eq : moment.state.map = .ofList moment.verdicts
  nodup : moment.visited.Nodup
  depth : ∀ visit ∈ moment.state.visits, visit.depth ≤ maxDepth
  known : ∀ method, moment.state.map.contains method → method ∈ moment.visited
  waiting : ∀ next ∈ moment.waiting, moment.Resumes refuses next
  listed : ∀ method ∈ methods, method ∈ moment.later ∨ method ∈ moment.visited
  phase : moment.Phase refuses

section Invariant

variable {classifier : Classifier} {refuses : Bool} {maxDepth : Nat} {methods : List Token} {a b : Moment}

/-- Between two methods, every visited method has a verdict. -/
theorem Phase.all_of_done (h : a.Phase refuses) (hdone : a.current = .done) :
    ∀ method ∈ a.visited, a.state.map.contains method := by
  cases h with
  | idle _ all => exact all
  | settled _ _ all => exact all
  | fresh _ hd => rw [hdone] at hd; cases hd
  | failing _ hd => rw [hdone] at hd; cases hd

/-- The modules may change, and a procedure may go on or be woken up. -/
theorem Orderly.move (h : a.Orderly refuses maxDepth methods) (current : Procedure) (pair : ModulePair)
    {waiting : List (Result Unit → Procedure)} (hwaiting : waiting ⊆ a.waiting)
    (hphase : Phase refuses ⟨current, waiting, a.later, { a.state with pair }, a.verdicts⟩) :
    Orderly refuses maxDepth methods ⟨current, waiting, a.later, { a.state with pair }, a.verdicts⟩ where
  map_eq := h.map_eq
  nodup := h.nodup
  depth := h.depth
  known := h.known
  waiting next hn := h.waiting next (hwaiting hn)
  listed := h.listed
  phase := hphase

/-- The current method gets a verdict. -/
theorem Orderly.record (h : a.Orderly refuses maxDepth methods) {method : Token} (hm : method ∈ a.visited)
    (others : ∀ other ∈ a.visited, other = method ∨ a.state.map.contains other) {next : Procedure}
    (hnext : next.Disciplined refuses method true) (kind : Classification) :
    Orderly refuses maxDepth methods
      ⟨next, a.waiting, a.later, { a.state with map := a.state.map.record method kind },
        a.verdicts ++ [(method, kind)]⟩ := by
  have hordered : a.state.map.Ordered := by
    rw [h.map_eq]
    exact ClassificationMap.ordered_ofList a.verdicts
  refine ⟨?_, h.nodup, h.depth, fun other ho => ?_, h.waiting, h.listed, .settled hm hnext fun other ho => ?_⟩
  · rw [ClassificationMap.ofList_append_singleton, h.map_eq]
  · rcases hordered.contains_record.mp ho with rfl | ho
    · exact hm
    · exact h.known other ho
  · exact hordered.contains_record.mpr ((others other ho).imp_left Eq.symm)

/-- The classifier is invoked for a method without a verdict, when no other visited method lacks one. -/
theorem Orderly.visit (h : a.Orderly refuses maxDepth methods)
    (hc : ∀ method, (classifier method).Disciplined refuses method false)
    (hall : ∀ other ∈ a.visited, a.state.map.contains other) {callee : Token}
    (hnew : ¬a.state.map.contains callee) {depth : Nat} (hdepth : depth ≤ maxDepth)
    {waiting : List (Result Unit → Procedure)} (hwaiting : ∀ next ∈ waiting, a.Resumes refuses next)
    {later : List Token} (hlater : ∀ method ∈ a.later, method = callee ∨ method ∈ later) :
    Orderly refuses maxDepth methods
      ⟨classifier callee, waiting, later, a.state.visit callee depth, a.verdicts⟩ := by
  have hvisited : Moment.visited ⟨classifier callee, waiting, later, a.state.visit callee depth, a.verdicts⟩ =
      a.visited ++ [callee] := by simp [Moment.visited, ClassifyState.visit]
  constructor
  case map_eq => exact h.map_eq
  case nodup =>
    rw [hvisited]
    refine h.nodup.append (List.nodup_singleton _) fun other ho hs => hnew ?_
    rw [← List.mem_singleton.mp hs]
    exact hall other ho
  case depth =>
    intro visit hv
    rcases List.mem_append.mp hv with hv | hv
    · exact h.depth visit hv
    · rw [List.mem_singleton.mp hv]
      exact hdepth
  case known =>
    intro method hm
    rw [hvisited]
    exact List.mem_append_left _ (h.known method hm)
  case waiting =>
    intro next hn
    obtain ⟨method, hm, hresume⟩ := hwaiting next hn
    exact ⟨method, by rw [hvisited]; exact List.mem_append_left _ hm, hresume⟩
  case listed =>
    intro method hm
    rw [hvisited]
    rcases h.listed method hm with hl | hv
    · rcases hlater method hl with rfl | hl
      · exact .inr (by simp)
      · exact .inl hl
    · exact .inr (List.mem_append_left _ hv)
  case phase =>
    have hcallee : callee ∈ Moment.visited ⟨classifier callee, waiting, later, a.state.visit callee depth,
        a.verdicts⟩ := by simp [hvisited]
    refine .fresh hcallee (hc callee) fun other ho => ?_
    rw [hvisited] at ho
    rcases List.mem_append.mp ho with ho | ho
    · exact .inr (hall other ho)
    · exact .inl (List.mem_singleton.mp ho)

/-- One step keeps the order. -/
theorem Orderly.step (hc : ∀ method, (classifier method).Disciplined refuses method false)
    (h : a.Orderly refuses maxDepth methods) (hs : Step classifier maxDepth a b) :
    b.Orderly refuses maxDepth methods := by
  have hphase := h.phase
  cases hs with
  | @inspect next _ _ state =>
    refine h.move _ _ (List.Subset.refl _) ?_
    cases hphase with
    | idle hd => cases hd
    | settled hm hd all => cases hd with | inspect hd => exact .settled hm (hd state) all
    | fresh hm hd others => cases hd with | inspect hd => exact .fresh hm (hd state) others
    | failing _ hd => cases hd
  | @record method kind =>
    cases hphase with
    | idle hd => cases hd
    | settled hm hd all => cases hd with | record hd => exact h.record hm (fun other ho => .inr (all other ho)) hd kind
    | fresh hm hd others => cases hd with | record hd => exact h.record hm others hd kind
    | failing _ hd => cases hd
  | edit =>
    refine h.move _ _ (List.Subset.refl _) ?_
    cases hphase with
    | idle hd => cases hd
    | settled hm hd all => cases hd with | edit hd => exact .settled hm hd all
    | fresh hm hd others => cases hd with | edit hd => exact .fresh hm hd others
    | failing _ hd => cases hd
  | skip =>
    refine h.move _ _ (List.Subset.refl _) ?_
    cases hphase with
    | idle hd => cases hd
    | settled hm hd all => cases hd with | deeper hd => exact .settled hm (hd _) all
    | fresh _ hd => cases hd
    | failing _ hd => cases hd
  | call hnew hdepth =>
    cases hphase with
    | idle hd => cases hd
    | @settled method hm hd all =>
      cases hd with
      | deeper hd hpass =>
        refine h.visit hc all hnew hdepth (fun other ho => ?_) fun _ hl => .inr hl
        rcases List.mem_cons.mp ho with rfl | ho
        · exact ⟨method, hm, hd, hpass⟩
        · exact h.waiting other ho
    | fresh _ hd => cases hd
    | failing _ hd => cases hd
  | @answer next waiting =>
    obtain ⟨method, hm, hd, -⟩ := h.waiting next List.mem_cons_self
    refine h.move _ _ (List.subset_cons_self _ _) ?_
    exact .settled hm (hd _) (hphase.all_of_done rfl)
  | @refuse error next waiting later state verdicts =>
    obtain ⟨method, hm, hd, hpass⟩ := h.waiting next List.mem_cons_self
    refine h.move _ _ (List.subset_cons_self _ _) ?_
    have hfailing : refuses = true → Phase refuses
        ⟨next (.error error), waiting, later, state, verdicts⟩ := by
      intro hr
      obtain ⟨passed, hp⟩ := hpass hr error
      exact .failing hr hp
    cases hphase with
    | idle hcurrent => cases hcurrent
    | settled _ _ all => exact .settled hm (hd _) all
    | fresh _ hcurrent => cases hcurrent with | fail hr => exact hfailing (by simpa using hr)
    | failing hr => exact hfailing hr
  | @pass method later _ _ hknown =>
    refine ⟨h.map_eq, h.nodup, h.depth, h.known, h.waiting, fun other ho => ?_, .idle rfl (hphase.all_of_done rfl)⟩
    rcases h.listed other ho with hl | hv
    · rcases List.mem_cons.mp hl with rfl | hl
      · exact .inr (h.known _ hknown)
      · exact .inl hl
    · exact .inr hv
  | start hnew =>
    refine h.visit hc (hphase.all_of_done rfl) hnew (Nat.zero_le _)
      (fun _ hn => absurd hn List.not_mem_nil) fun other ho => ?_
    exact List.mem_cons.mp ho

/-- Any number of steps keeps the order. -/
theorem Orderly.reaches (hc : ∀ method, (classifier method).Disciplined refuses method false)
    (h : a.Orderly refuses maxDepth methods) (hr : Reaches classifier maxDepth a b) :
    b.Orderly refuses maxDepth methods := by
  induction hr with
  | refl => exact h
  | tail _ hs ih => exact ih.step hc hs

theorem orderly_begin (refuses : Bool) (maxDepth : Nat) (methods : List Token) (pair : ModulePair) :
    (begin methods pair).Orderly refuses maxDepth methods where
  map_eq := rfl
  nodup := List.nodup_nil
  depth := nofun
  known _ hm := by cases hm
  waiting := nofun
  listed _ hm := .inl hm
  phase := .idle rfl nofun

/-- At the end, everything is visited and has a verdict. -/
theorem Orderly.classifiedOnce (h : a.Orderly refuses maxDepth methods) (hend : a.outcome? = some (.ok ())) :
    ClassifiedOnce methods maxDepth a.verdicts a.state.map a.state.visits := by
  obtain ⟨hcurrent, hlater⟩ := of_outcome?_ok hend
  have hall := h.phase.all_of_done hcurrent
  have hcount : ∀ {method}, method ∈ a.visited → invocations a.state.visits method = 1 :=
    fun hm => List.count_eq_one_of_mem h.nodup hm
  constructor
  case listed =>
    intro method hm
    rcases h.listed method hm with hl | hv
    · rw [hlater] at hl
      cases hl
    · exact hcount hv
  case once => exact fun method => List.nodup_iff_count_le_one.mp h.nodup method
  case depth => exact h.depth
  case contains =>
    refine fun method => ⟨fun hm => hcount (h.known method hm), fun hone => hall method ?_⟩
    exact List.count_pos_iff.mp (by rw [invocations] at hone; exact hone ▸ Nat.one_pos)
  case strongest =>
    intro method kind
    rw [h.map_eq, ClassificationMap.find?_ofList]

end Invariant
end Moment

section Phase

variable {context : PatchContext} {collaborators : Collaborators} {pipeline : Pipeline}

/-- Classification always comes to an end, and no verdict gets weaker on the way. If it succeeds, every method of
the module was classified once. -/
theorem Pipeline.classify_once (hd : collaborators.classifier.Disciplined) (pair : ModulePair)
    (hmap : pipeline.map = {}) (hvisits : pipeline.visits = []) :
    ∃ result after last, Pipeline.classify context collaborators pair pipeline = (result, after) ∧
      last.outcome? = some (result.map fun _ => ()) ∧ last.state.map = after.map ∧
      last.state.visits = after.visits ∧
      (∀ moment, Moment.Reaches collaborators.classifier context.config.maxDepth
          (.begin pair.patch.methodTokens pair) moment →
        Moment.Reaches collaborators.classifier context.config.maxDepth moment last ∧
          ∀ later, Moment.Reaches collaborators.classifier context.config.maxDepth moment later →
            moment.state.map.Below later.state.map) ∧
      (result.isOk → ClassifiedOnce pair.patch.methodTokens context.config.maxDepth last.verdicts after.map
        after.visits) := by
  obtain ⟨refuses, hdisciplined⟩ := hd
  rcases hclassify : Pipeline.classify context collaborators pair pipeline with ⟨result, after⟩
  obtain ⟨state, hall, -, hmap', hvisits', -⟩ := classify_eq hclassify
  rw [hmap, hvisits] at hall
  obtain ⟨last, hlast, hend, hstate⟩ := Moment.reaches_classifyAll collaborators.classifier
    context.config.maxDepth pair.patch.methodTokens { pair } []
  rw [hall] at hend hstate
  dsimp only at hend hstate
  subst hstate
  refine ⟨result, after, last, rfl, hend, hmap'.symm, hvisits'.symm, fun moment hm => ⟨hlast.to_end hend hm, ?_⟩, ?_⟩
  · exact fun later hl => (hl.map_eq (hm.map_eq rfl).1).2
  · intro hok
    rw [hmap', hvisits']
    refine ((Moment.orderly_begin refuses context.config.maxDepth _ pair).reaches hdisciplined
      hlast).classifiedOnce ?_
    rcases result with error | patched
    · cases hok
    · exact hend

/-- The methods call each other in a circle, and one that is in no table. -/
def circularCalls (method : Token) : List Token :=
  if method = Sample.make then [.ofRow .methodDef 3, .ofRow .methodDef 1, .ofRow .methodDef 9]
  else [Sample.make, .ofRow .memberRef 1]

def circularCollaborators : Collaborators :=
  { Sample.collaborators with classifier := .ofCalls (fun _ => .fix) circularCalls }

theorem Pipeline.classify_once_circular :
    circularCollaborators.classifier.Disciplined ∧ (Pipeline.create "Game").map = {} ∧
      (Pipeline.create "Game").visits = [] ∧
      ∃ result after verdicts, Pipeline.classify ⟨Sample.config, Sample.support⟩ circularCollaborators Sample.pair
          (Pipeline.create "Game") = (result, after) ∧ after.map.size = 7 ∧
        ClassifiedOnce Sample.pair.patch.methodTokens Sample.config.maxDepth verdicts after.map after.visits := by
  have hd : circularCollaborators.classifier.Disciplined := Classifier.ofCalls_disciplined _ _
  obtain ⟨result, after, last, hclassify, -, -, -, -, honce⟩ :=
    @classify_once ⟨Sample.config, Sample.support⟩ circularCollaborators (.create "Game") hd Sample.pair rfl rfl
  have hok : (Pipeline.classify ⟨Sample.config, Sample.support⟩ circularCollaborators Sample.pair
      (Pipeline.create "Game")).1.isOk := by decide +kernel
  have hsize : (Pipeline.classify ⟨Sample.config, Sample.support⟩ circularCollaborators Sample.pair
      (Pipeline.create "Game")).2.map.size = 7 := by decide +kernel
  rw [hclassify] at hok hsize
  exact ⟨hd, rfl, rfl, result, after, last.verdicts, hclassify, hsize, honce hok⟩

end Phase
end HotPatch
