import HotPatch.Patch.Classify
import HotPatch.Proofs.Patch.Verdicts
import Mathlib.Logic.Relation
import Mathlib.Tactic

/-!
# Classification step by step

A classification under way is a procedure that is carried out, the procedures
that wait for the methods they asked for, and the methods of the module that
come later. Each step carries out one action or returns to the procedure that
waits. Nothing bounds the number of steps, and still the steps come to an end:
they lead to what classifying all methods answers.
-/

namespace HotPatch

/-- A classification under way, with the verdicts recorded so far. As many procedures are waiting, the
innermost first, as the method that is classified lies deep. -/
structure Moment where
  current : Procedure
  waiting : List (Result Unit → Procedure) := []
  later : List Token := []
  state : ClassifyState
  verdicts : List (Token × Classification) := []

/-- An invocation of the classifier is kept. -/
def ClassifyState.visit (state : ClassifyState) (method : Token) (depth : Nat) : ClassifyState :=
  { state with visits := state.visits ++ [⟨method, depth, state.map.find? method⟩] }

/-- What is left to do when the classification of a method has ended. -/
def Procedure.ofResult : Result Unit → Procedure
  | .ok () => .done
  | .error error => .fail error

namespace Moment

variable (classifier : Classifier) (maxDepth : Nat)

inductive Step : Moment → Moment → Prop
  | inspect {next waiting later state verdicts} :
    Step ⟨.inspect next, waiting, later, state, verdicts⟩ ⟨next state, waiting, later, state, verdicts⟩
  | record {method kind next waiting later state verdicts} :
    Step ⟨.record method kind next, waiting, later, state, verdicts⟩
      ⟨next, waiting, later, { state with map := state.map.record method kind }, verdicts ++ [(method, kind)]⟩
  | edit {change next waiting later state verdicts} :
    Step ⟨.edit change next, waiting, later, state, verdicts⟩
      ⟨next, waiting, later, { state with pair := change state.pair }, verdicts⟩
  | skip {callee next waiting later state verdicts}
    (h : state.map.contains callee ∨ maxDepth < waiting.length + 1) :
    Step ⟨.deeper callee next, waiting, later, state, verdicts⟩ ⟨next (.ok ()), waiting, later, state, verdicts⟩
  | call {callee next waiting later state verdicts} (hnew : ¬state.map.contains callee)
    (hdepth : waiting.length + 1 ≤ maxDepth) :
    Step ⟨.deeper callee next, waiting, later, state, verdicts⟩
      ⟨classifier callee, next :: waiting, later, state.visit callee (waiting.length + 1), verdicts⟩
  | answer {next waiting later state verdicts} :
    Step ⟨.done, next :: waiting, later, state, verdicts⟩ ⟨next (.ok ()), waiting, later, state, verdicts⟩
  | refuse {error next waiting later state verdicts} :
    Step ⟨.fail error, next :: waiting, later, state, verdicts⟩
      ⟨next (.error error), waiting, later, state, verdicts⟩
  | pass {method later state verdicts} (h : state.map.contains method) :
    Step ⟨.done, [], method :: later, state, verdicts⟩ ⟨.done, [], later, state, verdicts⟩
  | start {method later state verdicts} (h : ¬state.map.contains method) :
    Step ⟨.done, [], method :: later, state, verdicts⟩
      ⟨classifier method, [], later, state.visit method 0, verdicts⟩

/-- Any number of steps. -/
abbrev Reaches : Moment → Moment → Prop := Relation.ReflTransGen (Step classifier maxDepth)

/-- Before the first method. -/
def begin (methods : List Token) (pair : ModulePair) : Moment :=
  { current := .done, later := methods, state := { pair } }

/-- Nothing waits any more: all methods are classified, or one of them failed. -/
def outcome? : Moment → Option (Result Unit)
  | ⟨.done, [], [], _, _⟩ => some (.ok ())
  | ⟨.fail error, [], _, _, _⟩ => some (.error error)
  | _ => none

variable {classifier maxDepth} {a b c : Moment}

/-- There is never a choice. -/
theorem Step.unique (hb : Step classifier maxDepth a b) (hc : Step classifier maxDepth a c) : b = c := by
  cases hb with
  | inspect | record | edit | answer | refuse => cases hc; rfl
  | skip h =>
    cases hc with
    | skip => rfl
    | call hnew hdepth => exact absurd h (not_or.mpr ⟨hnew, Nat.not_lt.mpr hdepth⟩)
  | call hnew hdepth =>
    cases hc with
    | skip h => exact absurd h (not_or.mpr ⟨hnew, Nat.not_lt.mpr hdepth⟩)
    | call => rfl
  | pass h =>
    cases hc with
    | pass => rfl
    | start hnew => exact absurd h hnew
  | start hnew =>
    cases hc with
    | pass h => exact absurd h hnew
    | start => rfl

theorem of_outcome?_ok (h : a.outcome? = some (.ok ())) : a.current = .done ∧ a.later = [] := by
  unfold outcome? at h
  split at h
  · exact ⟨rfl, rfl⟩
  · cases h
  · cases h

theorem not_step_of_outcome? {result : Result Unit} (h : a.outcome? = some result) :
    ¬Step classifier maxDepth a b := by
  intro hs
  cases hs <;> cases h

/-- What was reached on the way leads on to the end. -/
theorem Reaches.to_end {result : Result Unit} (hc : Reaches classifier maxDepth a c)
    (hend : c.outcome? = some result) (hb : Reaches classifier maxDepth a b) : Reaches classifier maxDepth b c := by
  have hunique : Relator.RightUnique (Step classifier maxDepth) := fun _ _ _ => Step.unique
  rcases Relation.ReflTransGen.total_of_right_unique hunique hc hb with h | h
  · rcases Relation.ReflTransGen.cases_head h with rfl | ⟨next, hs, -⟩
    · exact .refl
    · exact absurd hs (not_step_of_outcome? hend)
  · exact h

section Running

variable {waiting : List (Result Unit → Procedure)} {later : List Token}
  {below : Token → ClassifyState → Result Unit × ClassifyState}

/-- Whatever a called method answers, the waiting procedure goes on with it. -/
theorem step_ofResult (result : Result Unit) (next : Result Unit → Procedure) (state : ClassifyState)
    (verdicts : List (Token × Classification)) :
    Step classifier maxDepth ⟨.ofResult result, next :: waiting, later, state, verdicts⟩
      ⟨next result, waiting, later, state, verdicts⟩ := by
  rcases result with error | ⟨⟩
  · exact .refuse
  · exact .answer

/-- A procedure is carried out step by step if the classification of called methods is. -/
theorem reaches_perform
    (hbelow : ∀ callee next state verdicts, ∃ recorded,
      Reaches classifier maxDepth ⟨.deeper callee next, waiting, later, state, verdicts⟩
        ⟨next (below callee state).1, waiting, later, (below callee state).2, recorded⟩)
    (procedure : Procedure) (state : ClassifyState) (verdicts : List (Token × Classification)) :
    ∃ recorded, Reaches classifier maxDepth ⟨procedure, waiting, later, state, verdicts⟩
      ⟨.ofResult (procedure.perform below state).1, waiting, later, (procedure.perform below state).2, recorded⟩ := by
  induction procedure generalizing state verdicts with
  | done | fail => exact ⟨verdicts, .refl⟩
  | inspect next ih =>
    obtain ⟨recorded, h⟩ := ih state state verdicts
    exact ⟨recorded, .head .inspect h⟩
  | record method kind next ih =>
    obtain ⟨recorded, h⟩ := ih { state with map := state.map.record method kind } (verdicts ++ [(method, kind)])
    exact ⟨recorded, .head .record h⟩
  | edit change next ih =>
    obtain ⟨recorded, h⟩ := ih { state with pair := change state.pair } verdicts
    exact ⟨recorded, .head .edit h⟩
  | deeper callee next ih =>
    obtain ⟨first, hcall⟩ := hbelow callee next state verdicts
    obtain ⟨recorded, h⟩ := ih (below callee state).1 (below callee state).2 first
    exact ⟨recorded, hcall.trans h⟩

/-- The levels that remain are those between the depth of the method and the bound. -/
theorem reaches_classifyMethod {remaining : Nat} (waiting : List (Result Unit → Procedure)) (later : List Token)
    (method : Token) (state : ClassifyState) (verdicts : List (Token × Classification)) (hdepth : waiting.length + remaining = maxDepth) :
    ∃ recorded, Reaches classifier maxDepth
      ⟨classifier method, waiting, later, state.visit method waiting.length, verdicts⟩
      ⟨.ofResult (classifyMethod classifier remaining waiting.length method state).1, waiting, later,
        (classifyMethod classifier remaining waiting.length method state).2, recorded⟩ := by
  induction remaining generalizing waiting method state verdicts with
  | zero =>
    rw [classifyMethod]
    refine reaches_perform (fun callee next state verdicts => ⟨verdicts, ?_⟩) _ _ _
    have hskip : Step classifier maxDepth ⟨.deeper callee next, waiting, later, state, verdicts⟩
        ⟨next (.ok ()), waiting, later, state, verdicts⟩ := .skip (.inr (by omega))
    split_ifs <;> exact .single hskip
  | succ remaining ih =>
    rw [classifyMethod]
    refine reaches_perform (fun callee next state verdicts => ?_) _ _ _
    dsimp only
    split_ifs with hknown
    · exact ⟨verdicts, .single (.skip (.inl hknown))⟩
    · obtain ⟨recorded, h⟩ := ih (next :: waiting) callee state verdicts (by simp; omega)
      exact ⟨recorded, .head (.call hknown (by omega)) (h.tail (step_ofResult _ _ _ _))⟩

/-- The steps come to an end, and what they lead to is what classifying all methods answers. -/
theorem reaches_classifyAll (classifier : Classifier) (maxDepth : Nat) (methods : List Token) (state : ClassifyState)
    (verdicts : List (Token × Classification)) :
    ∃ last, Reaches classifier maxDepth ⟨.done, [], methods, state, verdicts⟩ last ∧
      last.outcome? = some (classifyAll classifier maxDepth methods state).1 ∧
      last.state = (classifyAll classifier maxDepth methods state).2 := by
  induction methods generalizing state verdicts with
  | nil => exact ⟨_, .refl, rfl, rfl⟩
  | cons method methods ih =>
    rw [classifyAll]
    split_ifs with hknown
    · obtain ⟨last, hr, hend⟩ := ih state verdicts
      exact ⟨last, .head (.pass hknown) hr, hend⟩
    · obtain ⟨recorded, hr⟩ := reaches_classifyMethod [] methods method state verdicts (Nat.zero_add maxDepth)
      rcases hc : classifyMethod classifier maxDepth 0 method state with ⟨error | ⟨⟩, next⟩
      · rw [List.length_nil, hc] at hr
        exact ⟨_, .head (.start hknown) hr, rfl, rfl⟩
      · rw [List.length_nil, hc] at hr
        obtain ⟨last, hl, hend⟩ := ih next recorded
        exact ⟨last, .head (.start hknown) (hr.trans hl), hend⟩

end Running

/-- From the start on, the map holds what was recorded. -/
theorem Reaches.map_eq (h : Reaches classifier maxDepth a b) (ha : a.state.map = .ofList a.verdicts) :
    b.state.map = .ofList b.verdicts ∧ a.state.map.Below b.state.map := by
  induction h with
  | refl => exact ⟨ha, .refl _⟩
  | tail _ hs ih =>
    obtain ⟨hmap, hbelow⟩ := ih
    cases hs with
    | @record method kind next waiting later state verdicts =>
      dsimp only at hmap hbelow ⊢
      refine ⟨?_, hbelow.trans (.record ?_ method kind)⟩
      · rw [hmap, ClassificationMap.ofList_append_singleton]
      · rw [hmap]
        exact ClassificationMap.ordered_ofList verdicts
    | inspect | edit | skip | call | answer | refuse | pass | start => exact ⟨hmap, hbelow⟩

end Moment
end HotPatch
