import HotPatch.Files.Mapping

/-!
# File systems

Publishing runs against any state that offers these operations. The plain file
system works on a host; the scripted one keeps a log of the calls and makes
some of them fail without effect.
-/

namespace HotPatch

structure FileSystem (σ : Type) where
  write : Path → Bytes → StateM σ (Except FileFault Unit)
  copy : Path → Path → StateM σ (Except FileFault Unit)
  rename : Path → Path → StateM σ (Except FileFault Unit)
  remove : Path → StateM σ (Except FileFault Unit)
  /-- Whether a path leads to a file. -/
  isFile : Path → StateM σ Bool
  /-- Forgets the mapping of a path. -/
  unload : Path → StateM σ Unit

namespace Host

/-- Lets a disk operation take effect, if it succeeds. -/
def apply (operation : Disk → Except FileFault Disk) : StateM Host (Except FileFault Unit) := fun host =>
  match operation host.disk with
  | .ok disk => (.ok (), { host with disk })
  | .error fault => (.error fault, host)

def fileSystem : FileSystem Host where
  write path bytes := apply (·.write path bytes)
  copy source target := apply (·.copy source target)
  rename source target := apply (·.rename source target)
  remove path := apply (·.remove path)
  isFile path := return (← get).disk.isFile path
  unload path := modify fun host => { host with cache := host.cache.unload path }

end Host

/-- The operations that a script can make fail. -/
inductive Operation where
  | write | copy | rename | remove
  deriving DecidableEq, Repr

def Operation.all : List Operation := [.write, .copy, .rename, .remove]

def Operation.name : Operation → String
  | write => "write"
  | copy => "copy"
  | rename => "rename"
  | remove => "remove"

/-- Calls number `first` to `first + count - 1` of an operation fail. -/
structure PlannedFault where
  operation : Operation
  first : Nat
  count : Nat
  deriving DecidableEq, Repr

inductive Outcome where
  | done | injected | failed
  deriving DecidableEq, Repr

def Outcome.text : Outcome → String
  | done => "ok"
  | injected => "FAIL"
  | failed => "ERR"

inductive Call where
  | change (operation : Operation) (paths : List Path) (outcome : Outcome)
  | query (path : Path) (answer : Bool)
  deriving DecidableEq, Repr

def Call.text : Call → String
  | change operation paths outcome =>
    " ".intercalate (operation.name :: paths.map (·.text) ++ [outcome.text])
  | query path answer => "exists " ++ path.text ++ (if answer then " true" else " false")

/-- A host whose operations are logged and fail as planned. -/
structure Script where
  host : Host
  faults : List PlannedFault := []
  calls : List Call := []
  deriving DecidableEq, Repr

namespace Script

/-- How many calls of an operation the log holds. -/
def performed (script : Script) (operation : Operation) : Nat :=
  script.calls.countP fun
    | .change done _ _ => done == operation
    | .query _ _ => false

def isPlanned (script : Script) (operation : Operation) : Bool :=
  let number := script.performed operation + 1
  script.faults.any fun fault =>
    fault.operation == operation && fault.first ≤ number && number < fault.first + fault.count

def perform (operation : Operation) (paths : List Path) (action : StateM Host (Except FileFault Unit)) :
    StateM Script (Except FileFault Unit) := fun script =>
  let log (outcome : Outcome) := script.calls ++ [.change operation paths outcome]
  if script.isPlanned operation then (.error .injected, { script with calls := log .injected })
  else
    match action script.host with
    | (.ok (), host) => (.ok (), { script with host, calls := log .done })
    | (.error fault, host) => (.error fault, { script with host, calls := log .failed })

def fileSystem : FileSystem Script where
  write path bytes := perform .write [path] (Host.fileSystem.write path bytes)
  copy source target := perform .copy [source, target] (Host.fileSystem.copy source target)
  rename source target := perform .rename [source, target] (Host.fileSystem.rename source target)
  remove path := perform .remove [path] (Host.fileSystem.remove path)
  isFile path := fun script =>
    let answer := script.host.disk.isFile path
    (answer, { script with calls := script.calls ++ [.query path answer] })
  unload path := modify fun script =>
    { script with host := { script.host with cache := script.host.cache.unload path } }

end Script
end HotPatch
