import HotPatch.Proofs.Patch.SessionRuns

/-!
# Callers of one lock table

Any number of callers try to lock modules and drop their guards, in any order.
Each attempt and each drop is a step of its own. After every history the table
lists the modules of the guards that are alive, and no module twice, so a module
is locked exactly while there is a guard of it. A run of a session takes a lock
and gives it back, however it ends.
-/

namespace HotPatch

/-- The lock of a module, in the hands of a caller until it is dropped. -/
structure Guard (C : Type) where
  holder : C
  module : String
  deriving DecidableEq, Repr

/-- A lock table that callers share, and the guards that are alive, the latest one first. -/
structure Locking (C : Type) where
  table : LockTable := {}
  guards : List (Guard C) := []
  deriving DecidableEq, Repr

namespace Locking

/-- What a caller may do: try to lock a module, or drop one of the guards. -/
inductive Event (C : Type) where
  | attempt (caller : C) (name : String)
  | drop (index : Nat)

variable {C : Type} {state : Locking C}

/-- A module that is free gets a guard. -/
def attempt (caller : C) (name : String) (state : Locking C) : Result (Guard C) × Locking C :=
  match state.table.acquire name with
  | .ok table => (.ok ⟨caller, name⟩, ⟨table, ⟨caller, name⟩ :: state.guards⟩)
  | .error error => (.error error, state)

/-- A guard that is dropped releases its module. -/
def drop (index : Nat) (state : Locking C) : Locking C :=
  match state.guards[index]? with
  | some guard => ⟨state.table.release guard.module, state.guards.eraseIdx index⟩
  | none => state

def step (state : Locking C) : Event C → Locking C
  | .attempt caller name => (state.attempt caller name).2
  | .drop index => state.drop index

def run (history : List (Event C)) (state : Locking C) : Locking C := history.foldl step state

/-- There is a guard of the module. -/
def Held (state : Locking C) (name : String) : Prop := ∃ guard ∈ state.guards, guard.module = name

/-- The table lists the modules of the guards, and none of them twice. -/
structure Sound (state : Locking C) : Prop where
  listed : state.table.names = state.guards.map (·.module)
  distinct : (state.guards.map (·.module)).Nodup

theorem sound_new : Sound ({} : Locking C) := ⟨rfl, List.nodup_nil⟩

namespace Sound

variable (h : state.Sound) {caller : C} {name : String} {index : Nat} {guard : Guard C}

include h

theorem isLocked_iff : state.table.isLocked name ↔ state.Held name := by
  rw [LockTable.isLocked, h.listed, List.contains_iff_mem, List.mem_map, Held]

theorem attempt_of_held (hheld : state.Held name) :
    state.attempt caller name = (.error (.moduleBusy name), state) := by
  rw [attempt, LockTable.acquire, if_pos (h.isLocked_iff.mpr hheld)]

theorem attempt_of_free (hfree : ¬state.Held name) : state.attempt caller name =
    (.ok ⟨caller, name⟩, ⟨⟨name :: state.table.names⟩, ⟨caller, name⟩ :: state.guards⟩) := by
  rw [attempt, LockTable.acquire, if_neg (mt h.isLocked_iff.mp hfree)]

theorem attempt (caller : C) (name : String) : (state.attempt caller name).2.Sound := by
  by_cases hheld : state.Held name
  · rw [h.attempt_of_held hheld]
    exact h
  · rw [h.attempt_of_free hheld]
    refine ⟨congrArg (name :: ·) h.listed, List.nodup_cons.mpr ⟨fun hm => hheld ?_, h.distinct⟩⟩
    exact List.mem_map.mp hm

/-- Only the module of the guard is released, since no other guard is of the same module. -/
theorem release_eq (hguard : state.guards[index]? = some guard) :
    (state.table.release guard.module).names = (state.guards.eraseIdx index).map (·.module) := by
  obtain ⟨hlt, hget⟩ := List.getElem?_eq_some_iff.mp hguard
  have hindex : index < (state.guards.map (·.module)).length := by rwa [List.length_map]
  have hmodule : guard.module = (state.guards.map (·.module))[index] := by rw [List.getElem_map, hget]
  rw [LockTable.release, h.listed, ← List.eraseIdx_map, ← h.distinct.erase_getElem index hindex,
    h.distinct.erase_eq_filter, hmodule]

theorem drop (index : Nat) : (state.drop index).Sound := by
  rw [Locking.drop]
  rcases hguard : state.guards[index]? with - | guard
  · exact h
  · refine ⟨h.release_eq hguard, ?_⟩
    rw [← List.eraseIdx_map]
    exact h.distinct.sublist (List.eraseIdx_sublist _ _)

theorem step (event : Event C) : (state.step event).Sound := by
  cases event with
  | attempt caller name => exact h.attempt caller name
  | drop index => exact h.drop index

theorem run (history : List (Event C)) : (Locking.run history state).Sound := by
  induction history generalizing state with
  | nil => exact h
  | cons event history ih => exact ih (h.step event)

end Sound

/-- What the lock table is good for, at one moment: a module has one guard at most and is locked exactly while
it has one; then an attempt to lock it fails and changes nothing, otherwise it succeeds and locks this module
alone; and a guard that is dropped frees its own module alone. -/
structure Exclusive (state : Locking C) : Prop where
  single : ∀ (i j : Nat) (first second : Guard C), state.guards[i]? = some first → state.guards[j]? = some second →
    first.module = second.module → i = j
  locked : ∀ name, state.table.isLocked name ↔ state.Held name
  busy : ∀ caller name, state.Held name → state.attempt caller name = (.error (.moduleBusy name), state)
  granted : ∀ caller name, ¬state.Held name → ∃ next, state.attempt caller name = (.ok ⟨caller, name⟩, next) ∧
    next.guards = ⟨caller, name⟩ :: state.guards ∧
    ∀ other, next.table.isLocked other ↔ other = name ∨ state.table.isLocked other
  freed : ∀ index guard, state.guards[index]? = some guard →
    (state.drop index).guards = state.guards.eraseIdx index ∧
    ∀ other, (state.drop index).table.isLocked other ↔ other ≠ guard.module ∧ state.table.isLocked other

theorem Sound.exclusive (h : state.Sound) : state.Exclusive where
  single i j first second hi hj hmodule := by
    obtain ⟨hlt, -⟩ := List.getElem?_eq_some_iff.mp hi
    have hmap : ∀ {index : Nat} {guard : Guard C}, state.guards[index]? = some guard →
        (state.guards.map (·.module))[index]? = some guard.module := by
      intro index guard hguard
      rw [List.getElem?_map, hguard, Option.map_some]
    refine (List.getElem?_inj (by rwa [List.length_map]) h.distinct).mp ?_
    rw [hmap hi, hmap hj, hmodule]
  locked _ := h.isLocked_iff
  busy _ _ := h.attempt_of_held
  granted caller name hfree := by
    have hacquire : state.table.acquire name = .ok ⟨name :: state.table.names⟩ := if_neg (mt h.isLocked_iff.mp hfree)
    refine ⟨_, h.attempt_of_free hfree, rfl, fun other => ?_⟩
    simp [LockTable.isLocked_acquire hacquire]
  freed index guard hguard := by
    rw [Locking.drop, hguard]
    refine ⟨rfl, fun other => ?_⟩
    simp [LockTable.isLocked_release]

/-- The second caller is turned away, and goes on with another module while the first one finishes. -/
example : Locking.run [.attempt 1 "Game", .attempt 2 "Game", .attempt 2 "Menu", .drop 1] {} =
    { table := ⟨["Menu"]⟩, guards := [⟨2, "Menu"⟩] } := by decide

end Locking

namespace Session

/-- Whatever callers do with a lock table, it excludes; and a run of a session leaves it as it was, whether the
module is busy, cannot be patched, fails in a phase or in the publication, or is patched. -/
theorem locks_exclude_and_return :
    (∀ (C : Type) (history : List (Locking.Event C)), (Locking.run history {}).Exclusive) ∧
    ∀ (setup : SessionSetup) (tag : Nat → String) (module : String) (session : Session),
      (patch setup tag module session).2.locks = session.locks ∧
      (session.locks.isLocked module → patch setup tag module session = (.error (.moduleBusy module), session)) :=
  ⟨fun _ history => (Locking.sound_new.run history).exclusive,
    fun _ _ _ session => ⟨locks_patch session, patch_of_isLocked⟩⟩

end Session
end HotPatch
