import HotPatch.Files.Publish
import Mathlib.Tactic

/-!
# Laws of a file system

What publishing relies on is stated for the paths of an area, through a view of
what each of them holds. An operation takes full effect or fails. A failed
rename or removal changes nothing; a failed write or copy may spoil its target
and nothing else. Queries tell the truth, a missing source makes an operation
fail, and a path that does not end in a file name leads to no file.
-/

namespace HotPatch

/-- What the paths hold, where a path that leads to no file holds nothing. -/
abbrev Holdings := Path → Option Bytes

/-- The paths of an area, apart from those listed, hold what they held before. -/
def Holdings.AgreeExcept (area changed : List Path) (before after : Holdings) : Prop :=
  ∀ path ∈ area, path ∉ changed → after path = before path

namespace Holdings.AgreeExcept

variable {area changed other : List Path} {a b c : Holdings}

theorem refl : AgreeExcept area changed a a := fun _ _ _ => rfl

theorem trans (h : AgreeExcept area changed a b) (h' : AgreeExcept area changed b c) :
    AgreeExcept area changed a c :=
  fun path hp hc => (h' path hp hc).trans (h path hp hc)

theorem mono (hs : changed ⊆ other) (h : AgreeExcept area changed a b) : AgreeExcept area other a b :=
  fun path hp hc => h path hp fun hm => hc (hs hm)

end Holdings.AgreeExcept

open Holdings (AgreeExcept)

/-- The laws of a file system on the paths of an area, given what a state holds. -/
structure FileSystem.Lawful {σ : Type} (fs : FileSystem σ) (held : σ → Holdings) (area : List Path) :
    Prop where
  write : ∀ {path bytes s result s'}, path ∈ area → fs.write path bytes s = (result, s') →
    AgreeExcept area [path] (held s) (held s') ∧ (result = .ok () → held s' path = some bytes)
  copy : ∀ {source target s result s'}, source ∈ area → target ∈ area → source ≠ target →
    fs.copy source target s = (result, s') → AgreeExcept area [target] (held s) (held s') ∧
      (result = .ok () → (held s source).isSome ∧ held s' target = held s source)
  rename : ∀ {source target s result s'}, source ∈ area → target ∈ area → source ≠ target →
    fs.rename source target s = (result, s') →
      (result = .ok () → AgreeExcept area [source, target] (held s) (held s') ∧
        (held s source).isSome ∧ held s' target = held s source ∧ held s' source = none) ∧
      (result ≠ .ok () → AgreeExcept area [] (held s) (held s'))
  remove : ∀ {path s result s'}, path ∈ area → fs.remove path s = (result, s') →
    (result = .ok () → AgreeExcept area [path] (held s) (held s') ∧ (held s path).isSome ∧
      held s' path = none) ∧
    (result ≠ .ok () → AgreeExcept area [] (held s) (held s'))
  isFile : ∀ {path s answer s'}, path ∈ area → fs.isFile path s = (answer, s') →
    answer = (held s path).isSome ∧ AgreeExcept area [] (held s) (held s')
  unload : ∀ path s, AgreeExcept area [] (held s) (held (fs.unload path s).2)
  folder : ∀ {path s}, path ∈ area → path.fileName? = none → held s path = none

/-- Operations leave alone what other files read as, be it contents or the reason why there are none. -/
def Disk.ReadsAgreeExcept (area changed : List Path) (before after : Disk) : Prop :=
  ∀ path ∈ area, path ∉ changed → after.read path = before.read path

theorem Disk.ReadsAgreeExcept.mono {area changed other : List Path} {before after : Disk}
    (h : Disk.ReadsAgreeExcept area changed before after) (hs : changed ⊆ other) :
    Disk.ReadsAgreeExcept area other before after :=
  fun path hp hc => h path hp fun hm => hc (hs hm)

/-- The laws for what the files of an area read as, given the disk of a state. -/
structure FileSystem.KeepsReads {σ : Type} (fs : FileSystem σ) (disk : σ → Disk) (area : List Path) : Prop where
  write : ∀ {path bytes s result s'}, path ∈ area → fs.write path bytes s = (result, s') →
    Disk.ReadsAgreeExcept area [path] (disk s) (disk s')
  copy : ∀ {source target s result s'}, source ∈ area → target ∈ area → fs.copy source target s = (result, s') →
    Disk.ReadsAgreeExcept area [target] (disk s) (disk s')
  rename : ∀ {source target s result s'}, source ∈ area → target ∈ area →
    fs.rename source target s = (result, s') →
      Disk.ReadsAgreeExcept area [source, target] (disk s) (disk s') ∧
      (result ≠ .ok () → Disk.ReadsAgreeExcept area [] (disk s) (disk s'))
  remove : ∀ {path s result s'}, path ∈ area → fs.remove path s = (result, s') →
    Disk.ReadsAgreeExcept area [path] (disk s) (disk s')
  isFile : ∀ {path s answer s'}, path ∈ area → fs.isFile path s = (answer, s') →
    Disk.ReadsAgreeExcept area [] (disk s) (disk s')
  unload : ∀ path s, Disk.ReadsAgreeExcept area [] (disk s) (disk (fs.unload path s).2)

end HotPatch
