import HotPatch.Files.Disk

/-!
# Mapped files

A mapping keeps the contents that a file had when it was mapped, whatever
happens to the file. The cache answers the mapping of a path that is mapped
already; mappings are told apart by a serial number.
-/

namespace HotPatch

structure Mapping where
  serial : Nat
  bytes : Bytes
  deriving DecidableEq, Repr

/-- The contents of a file to be mapped. A folder can be opened but not mapped. -/
def Disk.mapped (disk : Disk) (path : Path) : Result Bytes :=
  match disk.find path with
  | .ok (.file bytes) => .ok bytes
  | .ok .folder => .error .unmappable
  | .error fault => .error (.file fault)

/-- The bytes of a mapping from an offset on. -/
def Mapping.slice (mapping : Mapping) (offset length : Nat) : Result Bytes :=
  match mapping.bytes.slice? offset (offset + length) with
  | some bytes => .ok bytes
  | none => .error .outOfBounds

structure MappingCache where
  mappings : List (Path × Mapping) := []
  nextSerial : Nat := 0
  deriving DecidableEq, Repr

namespace MappingCache

def find? (cache : MappingCache) (path : Path) : Option Mapping :=
  (cache.mappings.find? fun mapping => mapping.1.same path).map (·.2)

def isMapped (cache : MappingCache) (path : Path) : Bool := (cache.find? path).isSome

def size (cache : MappingCache) : Nat := cache.mappings.length

def map (cache : MappingCache) (disk : Disk) (path : Path) : Result (Mapping × MappingCache) :=
  match cache.find? path with
  | some mapping => .ok (mapping, cache)
  | none => do
    let mapping : Mapping := ⟨cache.nextSerial, ← disk.mapped path⟩
    return (mapping, ⟨(path, mapping) :: cache.mappings, cache.nextSerial + 1⟩)

/-- Forgets the mapping of a path. Who holds it may go on using it. -/
def unload (cache : MappingCache) (path : Path) : MappingCache :=
  { cache with mappings := cache.mappings.filter fun mapping => !mapping.1.same path }

end MappingCache

/-- A disk and the mappings of its files. -/
structure Host where
  disk : Disk := {}
  cache : MappingCache := {}
  deriving DecidableEq, Repr

end HotPatch
