import HotPatch.Patch.Pipeline

/-!
# Sessions

A session patches modules by name and publishes them into one folder. While a
module is being patched its name is locked, and a second run is refused.
-/

namespace HotPatch

/-- The names of the modules that are being patched. -/
structure LockTable where
  names : List String := []
  deriving DecidableEq, Repr

namespace LockTable

def isLocked (locks : LockTable) (name : String) : Bool := locks.names.contains name

def acquire (locks : LockTable) (name : String) : Result LockTable :=
  if locks.isLocked name then .error (.moduleBusy name) else .ok ⟨name :: locks.names⟩

def release (locks : LockTable) (name : String) : LockTable := ⟨locks.names.filter (· != name)⟩

theorem isLocked_acquire {locks next : LockTable} {name : String} (h : locks.acquire name = .ok next)
    (other : String) : next.isLocked other = (other == name || locks.isLocked other) := by
  unfold acquire at h
  split at h
  · simp at h
  · simp only [Except.ok.injEq] at h
    subst h
    by_cases hn : other = name <;> simp [isLocked, hn]

theorem isLocked_release (locks : LockTable) (name other : String) :
    (locks.release name).isLocked other = (other != name && locks.isLocked other) := by
  unfold release isLocked
  by_cases h : other = name <;> simp [List.contains_eq_mem, h]

/-- Giving back the lock that was taken last restores the table. -/
theorem release_cons {locks : LockTable} {name : String} (h : locks.isLocked name = false) :
    LockTable.release ⟨name :: locks.names⟩ name = locks := by
  have hfree : ∀ other ∈ locks.names, (other != name) = true := by
    intro other ho
    rw [bne_iff_ne]
    rintro rfl
    simp [isLocked, ho] at h
  simp [release, List.filter_eq_self.mpr hfree]

end LockTable

structure PatchOutcome where
  report : Report
  published : Option PublishedPaths
  deriving DecidableEq, Repr

/-- What stays the same during a session. -/
structure SessionSetup where
  context : PatchContext
  collaborators : Collaborators
  outputFolder : Option Path := none

/-- What runs of a session change. Each publication takes a new number. -/
structure Session where
  host : Host := {}
  locks : LockTable := {}
  publications : Nat := 0
  deriving DecidableEq, Repr

namespace Session

/-- Where the image of a module goes. -/
def destination (setup : SessionSetup) (folder : Path) (module : String) : Path :=
  folder.join ⟨module ++ "_patch." ++ setup.context.config.extensions.image⟩

variable (setup : SessionSetup) (tag : Nat → String)

/-- Publishes what a pipeline rewrote, if the session has an output folder. -/
def publish (pipeline : Pipeline) (session : Session) : Result (Option PublishedPaths) × Session :=
  match setup.outputFolder with
  | none => (.ok none, session)
  | some folder =>
    let (result, host) := pipeline.publish setup.context Host.fileSystem
      (destination setup folder pipeline.name) (tag session.publications) session.host
    (result.map some, { session with host, publications := session.publications + 1 })

/-- Runs a pipeline to its end while the name is locked. -/
def patchLocked (module : String) (session : Session) : Result (Option PatchOutcome) × Session :=
  match (Pipeline.create module).run setup.context setup.collaborators with
  | (.error error, _) => (.error error, session)
  | (.ok false, _) => (.ok none, session)
  | (.ok true, pipeline) =>
    let (result, session) := publish setup tag pipeline session
    (result.map fun published => some ⟨pipeline.report, published⟩, session)

/-- Patches a module, unless it is being patched already. The lock is released in the end. -/
def patch (module : String) (session : Session) : Result (Option PatchOutcome) × Session :=
  match session.locks.acquire module with
  | .error error => (.error error, session)
  | .ok locks =>
    let (result, session) := patchLocked setup tag module { session with locks }
    (result, { session with locks := session.locks.release module })

/-- Patches modules one after another. -/
def patchAll (modules : List String) : StateM Session (List (String × Result (Option PatchOutcome))) :=
  modules.mapM fun module => do
    let result ← patch setup tag module
    return (module, result)

end Session
end HotPatch
