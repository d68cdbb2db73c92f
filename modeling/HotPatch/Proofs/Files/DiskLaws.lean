import HotPatch.Proofs.Files.DiskPlaces

/-!
# The disk obeys the laws

The laws hold for plain names, each of which leads to its own place below the
root, whatever a disk holds there. They hold for a script as well: a call that
was made to fail changes nothing.
-/

namespace HotPatch

/-- A path that is no more than a file name which any disk accepts. -/
@[mk_iff]
structure Path.IsPlain (path : Path) : Prop where
  fileName : Path.IsFileName path.text
  slash : '/' ∉ path.text.toList
  zero : '\x00' ∉ path.text.toList
  short : path.text.utf8ByteSize ≤ Disk.nameLimit

instance (path : Path) : Decidable path.IsPlain := decidable_of_iff' _ path.isPlain_iff

namespace Path.IsPlain

variable {path : Path}

theorem names (h : path.IsPlain) : path.names = [] ++ [path.text] := Path.names_of_notMem h.slash

theorem namesFile (h : path.IsPlain) : path.NamesFile := ⟨[], path.text, h.names, h.fileName⟩

theorem location (h : path.IsPlain) : path.location = [path.text] := Path.location_of_names h.names h.fileName

end Path.IsPlain

/-- Plain names lead to places of their own. -/
theorem Path.Apart.of_plain {area : List Path} (ha : ∀ path ∈ area, path.IsPlain) : Path.Apart area where
  namesFile path hp := (ha path hp).namesFile
  injective path hp other ho h := by
    obtain ⟨text⟩ := path
    obtain ⟨name⟩ := other
    rw [(ha _ hp).location, (ha _ ho).location] at h
    simpa using h

namespace Disk

variable {disk : Disk} {path : Path} {area : List Path}

theorem resolve_plain (h : path.IsPlain) : disk.resolve path = .ok [path.text] := by
  have hp : ¬pathLimit ≤ path.text.utf8ByteSize := by
    have hs := h.short
    simp only [nameLimit, pathLimit] at hs ⊢
    omega
  have hs : ¬nameLimit < path.text.utf8ByteSize := Nat.not_lt.mpr h.short
  have hstep : Location.step [] path.text = [path.text] := by
    simp [Location.step, h.fileName.1, h.fileName.2.1, h.fileName.2.2]
  simp [resolve, walk, h.names, h.zero, hp, follow, at?, hs, hstep]

/-- A plain name reads as what stands at its place. -/
theorem read_place (h : path.IsPlain) : disk.read path =
    match disk.at? [path.text] with
    | some (.file bytes) => .ok bytes
    | some .folder => .error .isDirectory
    | none => .error .notFound := by
  rw [read, find, resolve_plain h]
  dsimp only [bind, Except.bind]
  rcases disk.at? [path.text] with - | - | bytes <;> rfl

theorem held_plain (h : path.IsPlain) : disk.held path =
    match disk.at? [path.text] with
    | some (.file bytes) => some bytes
    | _ => none := by
  rw [held, read_place h]
  rcases disk.at? [path.text] with - | - | bytes <;> rfl

theorem location_ne {other : Path} (hp : path.IsPlain) (hne : other ∉ [path]) : [other.text] ≠ path.location := by
  obtain ⟨text⟩ := other
  obtain ⟨name⟩ := path
  rw [hp.location]
  simpa using hne

/-- Replacing a plain name's entry leaves the other names alone. -/
theorem reads_set {entry : Entry} (ha : ∀ other ∈ area, other.IsPlain) (hp : path.IsPlain) :
    ReadsAgreeExcept area [path] disk (disk.set path.location entry) := by
  intro other ho hne
  rw [read_place (ha other ho), read_place (ha other ho), at?_set_ne _ (location_ne hp hne)]

theorem reads_erase (ha : ∀ other ∈ area, other.IsPlain) (hp : path.IsPlain) :
    ReadsAgreeExcept area [path] disk (disk.erase path.location) := by
  intro other ho hne
  rw [read_place (ha other ho), read_place (ha other ho), at?_erase_ne (location_ne hp hne)]

end Disk

/-- The laws hold for plain names on every host. -/
theorem Host.lawful {area : List Path} (ha : ∀ path ∈ area, path.IsPlain) :
    Host.fileSystem.Lawful (fun host => host.disk.held) area :=
  Host.lawful_of_apart (.of_plain ha)

/-- Plain names read as before, apart from those that an operation changes. -/
theorem Host.keepsReads {area : List Path} (ha : ∀ path ∈ area, path.IsPlain) :
    Host.fileSystem.KeepsReads (fun host => host.disk) area where
  write hp h := by
    obtain ⟨-, hw⟩ | ⟨-, rfl⟩ := Host.apply_cases (·.write _ _) h
    · rw [(Disk.write_place (ha _ hp).namesFile hw).2.2]
      exact Disk.reads_set ha (ha _ hp)
    · exact fun _ _ _ => rfl
  copy _ ht h := by
    obtain ⟨-, hc⟩ | ⟨-, rfl⟩ := Host.apply_cases (·.copy _ _) h
    · obtain ⟨bytes, -, -, -, hd⟩ := Disk.copy_place (ha _ ht).namesFile hc
      rw [hd]
      exact Disk.reads_set ha (ha _ ht)
    · exact fun _ _ _ => rfl
  rename {source target _ _ _} hs ht h := by
    obtain ⟨rfl, hr⟩ | ⟨-, rfl⟩ := Host.apply_cases (·.rename _ _) h
    · obtain ⟨bytes, -, -, -, hd⟩ := Disk.rename_place hr
      rw [hd]
      refine ⟨fun other ho hne => ?_, fun he => absurd rfl he⟩
      rw [Disk.reads_set ha (ha _ ht) other ho fun hm => hne (by simp_all),
        Disk.reads_erase ha (ha _ hs) other ho fun hm => hne (by simp_all)]
    · exact ⟨fun _ _ _ => rfl, fun _ _ _ _ => rfl⟩
  remove hp h := by
    obtain ⟨-, hr⟩ | ⟨-, rfl⟩ := Host.apply_cases (·.remove _) h
    · rw [(Disk.remove_place hr).2]
      exact Disk.reads_erase ha (ha _ hp)
    · exact fun _ _ _ => rfl
  isFile _ h := by
    cases h
    exact fun _ _ _ => rfl
  unload _ _ := fun _ _ _ => rfl

theorem Script.perform_cases (operation : Operation) (paths : List Path)
    (action : StateM Host (Except FileFault Unit)) {script script' : Script}
    {result : Except FileFault Unit} (h : Script.perform operation paths action script = (result, script')) :
    (result ≠ .ok () ∧ script'.host = script.host) ∨ action script.host = (result, script'.host) := by
  unfold Script.perform at h
  dsimp only at h
  split_ifs at h
  · cases h
    exact .inl ⟨by simp, rfl⟩
  · rcases ha : action script.host with ⟨fault | ⟨⟩, host⟩ <;> rw [ha] at h <;> cases h <;> exact .inr rfl

/-- The laws that hold on every host hold under every script. -/
theorem Script.lawful_of_host {area : List Path}
    (law : Host.fileSystem.Lawful (fun host => host.disk.held) area) :
    Script.fileSystem.Lawful (fun script => script.host.disk.held) area where
  write hp h := by
    obtain ⟨hne, he⟩ | h := Script.perform_cases .write [_] (Host.fileSystem.write _ _) h
    · rw [he]
      exact ⟨.refl, fun hok => absurd hok hne⟩
    · exact law.write hp h
  copy hs ht hdiffer h := by
    obtain ⟨hne, he⟩ | h := Script.perform_cases .copy [_, _] (Host.fileSystem.copy _ _) h
    · rw [he]
      exact ⟨.refl, fun hok => absurd hok hne⟩
    · exact law.copy hs ht hdiffer h
  rename hs ht hdiffer h := by
    obtain ⟨hne, he⟩ | h := Script.perform_cases .rename [_, _] (Host.fileSystem.rename _ _) h
    · rw [he]
      exact ⟨fun hok => absurd hok hne, fun _ => .refl⟩
    · exact law.rename hs ht hdiffer h
  remove hp h := by
    obtain ⟨hne, he⟩ | h := Script.perform_cases .remove [_] (Host.fileSystem.remove _) h
    · rw [he]
      exact ⟨fun hok => absurd hok hne, fun _ => .refl⟩
    · exact law.remove hp h
  isFile hp h := by
    cases h
    exact ⟨Disk.isFile_eq _ _, .refl⟩
  unload _ _ := .refl
  folder {_ script} hp hf := law.folder (s := script.host) hp hf

/-- The laws hold for plain names under every script. -/
theorem Script.lawful {area : List Path} (ha : ∀ path ∈ area, path.IsPlain) :
    Script.fileSystem.Lawful (fun script => script.host.disk.held) area :=
  Script.lawful_of_host (Host.lawful ha)

theorem Script.keepsReads {area : List Path} (ha : ∀ path ∈ area, path.IsPlain) :
    Script.fileSystem.KeepsReads (fun script => script.host.disk) area where
  write hp h := by
    obtain ⟨-, he⟩ | h := Script.perform_cases .write [_] (Host.fileSystem.write _ _) h
    · exact fun _ _ _ => by rw [he]
    · exact (Host.keepsReads ha).write hp h
  copy hs ht h := by
    obtain ⟨-, he⟩ | h := Script.perform_cases .copy [_, _] (Host.fileSystem.copy _ _) h
    · exact fun _ _ _ => by rw [he]
    · exact (Host.keepsReads ha).copy hs ht h
  rename hs ht h := by
    obtain ⟨-, he⟩ | h := Script.perform_cases .rename [_, _] (Host.fileSystem.rename _ _) h
    · exact ⟨fun _ _ _ => by rw [he], fun _ _ _ _ => by rw [he]⟩
    · exact (Host.keepsReads ha).rename hs ht h
  remove hp h := by
    obtain ⟨-, he⟩ | h := Script.perform_cases .remove [_] (Host.fileSystem.remove _) h
    · exact fun _ _ _ => by rw [he]
    · exact (Host.keepsReads ha).remove hp h
  isFile _ h := by
    cases h
    exact fun _ _ _ => rfl
  unload _ _ := fun _ _ _ => rfl

end HotPatch
