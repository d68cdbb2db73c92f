import HotPatch.Bytes.Basic
import HotPatch.Error

/-!
# Files and folders

A disk is a finite map from locations to files and folders. A location is the
list of names that lead to an entry. A path is followed name by name, and each
step starts at a folder. Each operation either takes effect or leaves the disk
as it is and tells why.
-/

namespace HotPatch

inductive Entry where
  | folder
  | file (bytes : Bytes)
  deriving DecidableEq, Repr

abbrev Location := List String

/-- One step on a path: two dots go back, one dot and the empty name stay. -/
def Location.step (location : Location) (name : String) : Location :=
  if name = "" ∨ name = "." then location
  else if name = ".." then location.dropLast
  else location ++ [name]

structure Disk where
  entries : List (Location × Entry) := []
  deriving DecidableEq, Repr

namespace Disk

def at? (disk : Disk) (location : Location) : Option Entry :=
  if location = [] then some .folder else disk.entries.lookup location

def set (disk : Disk) (location : Location) (entry : Entry) : Disk :=
  ⟨(location, entry) :: disk.entries.filter (·.1 != location)⟩

def erase (disk : Disk) (location : Location) : Disk := ⟨disk.entries.filter (·.1 != location)⟩

/-- A name has at most this many bytes. -/
def nameLimit : Nat := 255

/-- A path has fewer bytes than this. -/
def pathLimit : Nat := 4096

/-- Follows names from a location on. What the last one leads to need not exist. -/
def follow (disk : Disk) : Location → List String → Except FileFault Location
  | location, [] => .ok location
  | location, name :: names =>
    match disk.at? location with
    | some .folder =>
      if nameLimit < name.utf8ByteSize then .error .nameTooLong
      else follow disk (location.step name) names
    | some (.file _) => .error .notDirectory
    | none => .error .notFound

/-- Follows names that were taken from a path. -/
def walk (disk : Disk) (path : Path) (names : List String) : Except FileFault Location :=
  if path.text.toList.contains '\x00' then .error .zeroInPath
  else if pathLimit ≤ path.text.utf8ByteSize then .error .nameTooLong
  else disk.follow [] names

/-- The location that a path leads to. A slash at the end demands a folder. -/
def resolve (disk : Disk) (path : Path) : Except FileFault Location := disk.walk path path.names

/-- The location that a path leads to, whatever slashes stand at its end. -/
def resolveBare (disk : Disk) (path : Path) : Except FileFault Location := disk.walk path path.bareNames

/-- The entry that a path leads to. -/
def find (disk : Disk) (path : Path) : Except FileFault Entry := do
  match disk.at? (← disk.resolve path) with
  | some entry => return entry
  | none => .error .notFound

def isFile (disk : Disk) (path : Path) : Bool :=
  match disk.find path with
  | .ok (.file _) => true
  | _ => false

/-- The contents of a file. -/
def read (disk : Disk) (path : Path) : Except FileFault Bytes :=
  match disk.find path with
  | .ok (.file bytes) => .ok bytes
  | .ok .folder => .error .isDirectory
  | .error fault => .error fault

/-- Creates a file or replaces its contents. -/
def write (disk : Disk) (path : Path) (bytes : Bytes) : Except FileFault Disk := do
  let location ← disk.resolveBare path
  if path.endsInSlash ∨ disk.at? location = some .folder then .error .isDirectory
  else return disk.set location (.file bytes)

def copy (disk : Disk) (source target : Path) : Except FileFault Disk := do
  disk.write target (← disk.read source)

/-- Moves a file, in place of a file that is there already. The dots of a folder cannot be replaced. -/
def rename (disk : Disk) (source target : Path) : Except FileFault Disk := do
  let old ← disk.resolve source
  let new ← disk.resolve target
  if source.endsInDots ∨ target.endsInDots then .error .busy
  else
    match disk.at? old with
    | none => .error .notFound
    | some .folder => .error .isDirectory
    | some (.file bytes) =>
      if disk.at? new = some .folder then .error .isDirectory
      else return (disk.erase old).set new (.file bytes)

def remove (disk : Disk) (path : Path) : Except FileFault Disk := do
  let _ ← disk.read path
  return disk.erase (← disk.resolve path)

/-- Creates a folder in one that is there already. -/
def makeFolder (disk : Disk) (path : Path) : Except FileFault Disk := do
  let location ← disk.resolveBare path
  if (disk.at? location).isSome then .error .taken else return disk.set location .folder

/-- Names in front come first, and a folder comes before its contents. -/
def precedes : Location → Location → Bool
  | [], _ => true
  | _, [] => false
  | a :: as, b :: bs => if a = b then precedes as bs else decide (a < b)

/-- What stands below a location, sorted by name level by level. -/
def listing (disk : Disk) (folder : Location) : List (Location × Entry) :=
  let below := disk.entries.filterMap fun (location, entry) =>
    if folder.isPrefixOf location ∧ folder ≠ location then some (location.drop folder.length, entry)
    else none
  below.mergeSort fun a b => precedes a.1 b.1

end Disk
end HotPatch
