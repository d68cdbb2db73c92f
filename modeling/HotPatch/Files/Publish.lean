import HotPatch.Files.FileSystem
import HotPatch.Image.Write

/-!
# Publishing a written module

The image and its symbols replace a previous pair as one: both are written to
pending files, the previous pair is copied, the mapping of the old image is
dropped, and both files are renamed back to back. If a step fails, what was
installed is taken back, newest first, and the files of the attempt are
removed; what cannot be removed is reported. Nothing is touched when one of the
extensions would lead to another folder.
-/

namespace HotPatch

/-- The extensions of the two files of a pair. -/
structure Extensions where
  image : String
  symbols : String
  deriving DecidableEq, Repr

structure PublishedPaths where
  image : Path
  symbols : Path
  deriving DecidableEq, Repr

def Extensions.paths (extensions : Extensions) (destination : Path) : PublishedPaths :=
  ⟨destination.withExtension extensions.image, destination.withExtension extensions.symbols⟩

/-- An extension is a part of a name, so it holds no separator. -/
def checkExtension (extension : String) : Result Unit :=
  if '/' ∈ extension.toList then .error (.separatorInExtension extension) else .ok ()

/-- The extension of the image is looked at first. -/
def Extensions.check (extensions : Extensions) : Result Unit := do
  checkExtension extensions.image
  checkExtension extensions.symbols

theorem checkExtension_eq_ok {extension : String} : checkExtension extension = .ok () ↔ '/' ∉ extension.toList := by
  unfold checkExtension
  split <;> simp [*]

theorem Extensions.check_of_separator {extensions : Extensions}
    (h : '/' ∈ extensions.image.toList ∨ '/' ∈ extensions.symbols.toList) :
    ∃ extension ∈ [extensions.image, extensions.symbols], '/' ∈ extension.toList ∧
      extensions.check = .error (.separatorInExtension extension) := by
  by_cases hi : '/' ∈ extensions.image.toList
  · refine ⟨extensions.image, by simp, hi, ?_⟩
    rw [check, checkExtension, if_pos hi]
    rfl
  · have hs := h.resolve_left hi
    refine ⟨extensions.symbols, by simp, hs, ?_⟩
    rw [check, checkExtension_eq_ok.mpr hi, checkExtension, if_pos hs]
    rfl

theorem Extensions.check_eq_ok {extensions : Extensions} :
    extensions.check = .ok () ↔ '/' ∉ extensions.image.toList ∧ '/' ∉ extensions.symbols.toList := by
  rw [← not_or]
  constructor
  · intro hc h
    obtain ⟨extension, -, -, he⟩ := check_of_separator h
    rw [he] at hc
    cases hc
  · intro h
    rw [not_or] at h
    rw [check, checkExtension_eq_ok.mpr h.1, checkExtension_eq_ok.mpr h.2]
    rfl

/-- A file next to the given one, whose name tells its purpose and the attempt. -/
def Path.sibling (path : Path) (purpose tag : String) : Path :=
  path.withFileName (path.stem?.getD "" ++ "." ++ purpose ++ "-" ++ tag ++ "." ++ path.extension?.getD "")

namespace Publish

/-- What an attempt has done so far: pending files, copies with the files that they were made of, and
installed files. -/
structure Progress where
  pending : List Path := []
  backups : List (Path × Path) := []
  installed : List Path := []
  deriving DecidableEq, Repr

/-- An interrupted attempt: how far it came, and why it stopped. -/
structure Interruption where
  progress : Progress
  message : String
  deriving DecidableEq, Repr

abbrev Attempt (σ α : Type) := ExceptT Interruption (StateM σ) α

variable {σ : Type} (fs : FileSystem σ)

/-- Runs an operation; its failure interrupts the attempt with the progress and the failed step. -/
def carryOut (operation : StateM σ (Except FileFault Unit)) (progress : Progress) (step : String) :
    Attempt σ Unit := do
  match ← operation with
  | .ok () => return ()
  | .error fault => throw ⟨progress, step ++ " failed: " ++ fault.message⟩

def writePending (tag : String) (progress : Progress) (file : Path × Bytes) : Attempt σ Progress := do
  let pending := file.1.sibling "pending" tag
  let progress := { progress with pending := progress.pending ++ [pending] }
  carryOut (fs.write pending file.2) progress ("writing " ++ pending.text)
  return progress

def backUp (tag : String) (progress : Progress) (path : Path) : Attempt σ Progress := do
  if ← fs.isFile path then
    let backup := path.sibling "backup" tag
    let progress := { progress with backups := progress.backups ++ [(backup, path)] }
    carryOut (fs.copy path backup) progress ("backing up " ++ path.text)
    return progress
  else return progress

def install (progress : Progress) (file : Path × Path) : Attempt σ Progress := do
  carryOut (fs.rename file.1 file.2) progress ("installing " ++ file.2.text)
  return { progress with installed := progress.installed ++ [file.2] }

/-- All steps that may interrupt the attempt. -/
def replace (paths : PublishedPaths) (written : Image.Written) (tag : String) : Attempt σ Progress := do
  let progress ← [(paths.image, written.image), (paths.symbols, written.symbols)].foldlM
    (writePending fs tag) {}
  let progress ← [paths.image, paths.symbols].foldlM (backUp fs tag) progress
  fs.unload paths.image
  (progress.pending.zip [paths.image, paths.symbols]).foldlM (install fs) progress

/-- Takes back one installed file: the copy of its predecessor is moved over it, or it is removed if
it had none. Answers whether that worked, and the copy that is left if not. -/
def takeBack (backups : List (Path × Path)) (target : Path) : StateM σ (Bool × List Path) := do
  match backups.find? fun backup => backup.2.same target with
  | some (backup, _) =>
    let result ← fs.rename backup target
    return if result.isOk then (true, []) else (false, [backup])
  | none =>
    let result ← fs.remove target
    return (result.isOk, [])

/-- Removes a file of the attempt, and answers it if that fails. -/
def discard (path : Path) : StateM σ (List Path) := do
  if ← fs.isFile path then
    let result ← fs.remove path
    return if result.isOk then [] else [path]
  else return []

/-- Copies of files that were not installed are of no use. -/
def discardBackup (installed : List Path) (backup : Path × Path) : StateM σ (List Path) :=
  if installed.any backup.2.same then return [] else discard fs backup.1

/-- Undoes an interrupted attempt. If that fails, the report names the symbols after the image. -/
def rollBack (extensions : Extensions) (image : Path) (interruption : Interruption) : StateM σ Error := do
  let progress := interruption.progress
  let restored ← progress.installed.reverse.mapM (takeBack fs progress.backups)
  let backups ← progress.backups.mapM (discardBackup fs progress.installed)
  let pending ← progress.pending.mapM (discard fs)
  let leftovers := (restored.map (·.2)).flatten ++ backups.flatten ++ pending.flatten
  if restored.all (·.1) then return .publish image interruption.message leftovers
  else return .publishInconsistent image (image.withExtension extensions.symbols) interruption.message leftovers

/-- Replaces the pair at the given paths, or takes back what was done. -/
def exchange (extensions : Extensions) (paths : PublishedPaths) (written : Image.Written) (tag : String) :
    StateM σ (Result PublishedPaths) := do
  match ← (replace fs paths written tag).run with
  | .error interruption => return .error (← rollBack fs extensions paths.image interruption)
  | .ok progress =>
    -- copies that cannot be removed do no harm
    progress.backups.forM fun backup => discard <| fs.remove backup.1
    return .ok paths
where
  discard (operation : StateM σ (Except FileFault Unit)) : StateM σ Unit := do
    let _ ← operation

/-- Publishes a pair. The tag tells the files of this attempt from those of others. -/
def publish (extensions : Extensions) (destination : Path) (written : Image.Written) (tag : String) :
    StateM σ (Result PublishedPaths) :=
  match extensions.check with
  | .error error => return .error error
  | .ok () => exchange fs extensions (extensions.paths destination) written tag

section Checked

variable {extensions : Extensions} (destination : Path) (written : Image.Written) (tag : String)

theorem publish_of_ok (h : extensions.check = .ok ()) :
    publish fs extensions destination written tag =
      exchange fs extensions (extensions.paths destination) written tag := by
  rw [publish, h]

theorem publish_of_error {error : Error} (h : extensions.check = .error error) (s : σ) :
    publish fs extensions destination written tag s = (.error error, s) := by
  rw [publish, h]
  rfl

end Checked

/-- How the two files of a pair stand to each other. -/
inductive Status where
  | consistent | digestMismatch | missingImage | missingSymbols
  deriving DecidableEq, Repr

def Status.name : Status → String
  | consistent => "Consistent"
  | digestMismatch => "DigestMismatch"
  | missingImage => "MissingModule"
  | missingSymbols => "MissingSymbols"

/-- Compares the digest of the image with the one that its symbols were written for. -/
def verify (disk : Disk) (paths : PublishedPaths) : Result Status :=
  match disk.mapped paths.image with
  | .error (.file .notFound) => .ok .missingImage
  | .error error => .error error
  | .ok image =>
    match disk.read paths.symbols with
    | .error .notFound => .ok .missingSymbols
    | .error fault => .error (.file fault)
    | .ok symbols => do
      let file ← Image.SymbolFile.parse symbols
      return if file.digest = Sha1.digest image then .consistent else .digestMismatch

end Publish
end HotPatch
