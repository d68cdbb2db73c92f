import HotPatch.Body.Target
import HotPatch.Patch.Classification
import HotPatch.Patch.Neutralize

/-!
# Classifying the methods of a module

A classifier is given a method and answers with a procedure: it may look at the
state, record verdicts, change the modules, and ask for the classification of
called methods. A called method is classified at the next depth, unless it has
a verdict already or lies too deep. All invocations of the classifier are kept.
-/

namespace HotPatch

/-- The two versions of a module, with what is known about their difference. -/
structure ModulePair where
  base : Module
  patch : Module
  addedTypes : List String := []
  changedMethods : List Token := []

/-- An invocation of the classifier, with the verdict that the method had at that moment. -/
structure Visit where
  method : Token
  depth : Nat
  verdict : Option Classification
  deriving DecidableEq, Repr

structure ClassifyState where
  pair : ModulePair
  map : ClassificationMap := {}
  visits : List Visit := []

/-- What a classifier does with a method. -/
inductive Procedure where
  | done
  | fail (error : Error)
  | inspect (next : ClassifyState → Procedure)
  | record (method : Token) (kind : Classification) (next : Procedure)
  | edit (change : ModulePair → ModulePair) (next : Procedure)
  | deeper (method : Token) (next : Result Unit → Procedure)

abbrev Classifier := Token → Procedure

namespace Procedure

/-- Carries a procedure out. `below` classifies called methods. -/
def perform (below : Token → ClassifyState → Result Unit × ClassifyState) :
    Procedure → ClassifyState → Result Unit × ClassifyState
  | done, state => (.ok (), state)
  | fail error, state => (.error error, state)
  | inspect next, state => perform below (next state) state
  | record method kind next, state => perform below next { state with map := state.map.record method kind }
  | edit change next, state => perform below next { state with pair := change state.pair }
  | deeper method next, state =>
    let (result, state) := below method state
    perform below (next result) state

end Procedure

/-- Invokes the classifier for a method at a depth; `remaining` more levels of calls are followed. -/
def classifyMethod (classifier : Classifier) :
    Nat → Nat → Token → ClassifyState → Result Unit × ClassifyState
  | remaining, depth, method, state =>
    let state := { state with visits := state.visits ++ [⟨method, depth, state.map.find? method⟩] }
    let below (callee : Token) (state : ClassifyState) : Result Unit × ClassifyState :=
      if state.map.contains callee then (.ok (), state)
      else
        match remaining with
        | 0 => (.ok (), state)
        | remaining + 1 => classifyMethod classifier remaining (depth + 1) callee state
    (classifier method).perform below state

/-- Classifies the methods that have no verdict yet, up to the first failure. -/
def classifyAll (classifier : Classifier) (maxDepth : Nat) :
    List Token → ClassifyState → Result Unit × ClassifyState
  | [], state => (.ok (), state)
  | method :: methods, state =>
    if state.map.contains method then classifyAll classifier maxDepth methods state
    else
      match classifyMethod classifier maxDepth 0 method state with
      | (.ok (), state) => classifyAll classifier maxDepth methods state
      | (.error error, state) => (.error error, state)

/-- What a table prescribes for a method. -/
structure Prescription where
  error : Option String := none
  verdicts : List Classification := []
  insertions : List (Nat × Code.Instruction) := []
  callees : List Token := []

namespace Prescription

/-- Classifies callees one after another, up to the first failure. -/
def followCalls : List Token → Procedure
  | [] => .done
  | callee :: callees => .deeper callee fun
    | .ok () => followCalls callees
    | .error error => .fail error

/-- Inserts instructions one after another, up to the first failure. -/
def insertAll (method : Token) (next : Procedure) : List (Nat × Code.Instruction) → Procedure
  | [] => next
  | (index, instruction) :: rest => .inspect fun state =>
    match state.pair.patch.insertInstruction method index instruction with
    | .ok patch => .edit (fun pair => { pair with patch }) (insertAll method next rest)
    | .error error => .fail error

/-- Fails, or records the verdicts, inserts the instructions and follows the calls. -/
def procedure (prescription : Prescription) (method : Token) : Procedure :=
  match prescription.error with
  | some text => .fail (.collaborator text)
  | none =>
    let rest := insertAll method (followCalls prescription.callees) prescription.insertions
    prescription.verdicts.foldr (fun kind next => .record method kind next) rest

end Prescription

/-- The classifier that does what a table prescribes, and nothing for other methods. -/
def Classifier.ofTable (table : List (Token × Prescription)) : Classifier := fun method =>
  match table.lookup method with
  | some prescription => prescription.procedure method
  | none => .done

end HotPatch
