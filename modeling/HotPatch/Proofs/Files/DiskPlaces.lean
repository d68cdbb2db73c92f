import HotPatch.Proofs.Files.LawfulFileSystem
import HotPatch.Proofs.Files.PathNames

/-!
# Where paths lead

A step on a path looks at a name and not at the disk, so a path leads to the
same place on every disk that lets it be followed. On the way it meets folders
only, and an operation on a file makes and removes none. So what one path holds
does not depend on what happens at other places, and the laws hold for any
paths that lead to places of their own.
-/

namespace HotPatch

namespace Path

/-- The place a path leads to on every disk that has the folders on the way. -/
def location (path : Path) : Location := path.names.foldl Location.step []

/-- A path that ends in a file name, with no slash behind it. -/
def NamesFile (path : Path) : Prop := ∃ parts name, path.names = parts ++ [name] ∧ IsFileName name

theorem location_of_names {path : Path} {parts : List String} {name : String}
    (hn : path.names = parts ++ [name]) (h : IsFileName name) :
    path.location = parts.foldl Location.step [] ++ [name] := by
  rw [location, hn, List.foldl_append]
  simp [Location.step, h.1, h.2.1, h.2.2]

theorem NamesFile.bareNames {path : Path} (h : path.NamesFile) : path.bareNames = path.names := by
  obtain ⟨parts, name, hn, hf⟩ := h
  simp [Path.bareNames, hn, hf.1]

theorem NamesFile.endsInSlash {path : Path} (h : path.NamesFile) : path.endsInSlash = false := by
  obtain ⟨parts, name, hn, hf⟩ := h
  rw [Path.endsInSlash, ← Bool.not_eq_true]
  intro hs
  change path.text.toSlice.endsWith "/" = true at hs
  rw [String.Slice.endsWith_string_iff] at hs
  obtain ⟨text, ht⟩ := hs
  have hp : path = ⟨String.ofList text ++ "/" ++ ""⟩ := by
    rw [Path.mk.injEq, ← String.toList_inj]
    simpa using ht.symm
  rw [hp, names_append (by simp)] at hn
  exact hf.1 (by simpa using (List.append_inj_right' hn rfl).symm)

theorem NamesFile.endsInDots {path : Path} (h : path.NamesFile) : path.endsInDots = false := by
  have hb := h.bareNames
  obtain ⟨parts, name, hn, hf⟩ := h
  rw [Path.endsInDots, hb, hn, List.getLast?_concat]
  simp [hf.2.1, hf.2.2]

theorem NamesFile.fileName?_ne_none {path : Path} (h : path.NamesFile) : path.fileName? ≠ none := by
  obtain ⟨parts, name, hn, hf⟩ := h
  rw [fileName?_of_names hn hf]
  exact Option.some_ne_none name

/-- Files that lead to places of their own. -/
structure Apart (area : List Path) : Prop where
  namesFile : ∀ path ∈ area, path.NamesFile
  injective : ∀ path ∈ area, ∀ other ∈ area, path.location = other.location → path = other

end Path

/-- What the files of a disk hold. -/
def Disk.held (disk : Disk) : Holdings := fun path => (disk.read path).toOption

namespace Disk

open Holdings (AgreeExcept)

variable {disk disk' : Disk} {path other source target : Path} {location : Location} {bytes : Bytes}

theorem at?_set_self (entry : Entry) (hl : location ≠ []) : (disk.set location entry).at? location = some entry := by
  simp [at?, set, hl]

theorem lookup_filter_ne {other : Location} (entries : List (Location × Entry)) (hne : other ≠ location) :
    (entries.filter (·.1 != location)).lookup other = entries.lookup other := by
  induction entries with
  | nil => rfl
  | cons head rest ih =>
    obtain ⟨key, entry⟩ := head
    by_cases hk : key = location
    · subst hk
      simp [List.lookup_cons, beq_false_of_ne hne, ih]
    · by_cases ho : other = key
      · subst ho
        simp [hk]
      · simp [hk, List.lookup_cons, ih]

theorem at?_set_ne {other : Location} (entry : Entry) (hne : other ≠ location) :
    (disk.set location entry).at? other = disk.at? other := by
  unfold at? set
  split_ifs
  · rfl
  · simp [List.lookup_cons, beq_false_of_ne hne, lookup_filter_ne _ hne]

theorem at?_erase_ne {other : Location} (hne : other ≠ location) :
    (disk.erase location).at? other = disk.at? other := by
  unfold at? erase
  split_ifs
  · rfl
  · exact lookup_filter_ne _ hne

theorem at?_erase_self (hl : location ≠ []) : (disk.erase location).at? location = none := by
  simp only [at?, erase, hl, if_false, List.lookup_eq_none_iff, List.mem_filter]
  intro entry he
  exact bne_iff_ne.mpr (Ne.symm (by simpa using he.2))

theorem ne_root (h : disk.at? location ≠ some .folder) : location ≠ [] := by
  rintro rfl
  exact h rfl

/-- Two disks with the same folders. -/
def SameFolders (disk disk' : Disk) : Prop :=
  ∀ location, disk'.at? location = some .folder ↔ disk.at? location = some .folder

theorem SameFolders.trans {last : Disk} (h : SameFolders disk disk') (h' : SameFolders disk' last) :
    SameFolders disk last := fun location => (h' location).trans (h location)

theorem sameFolders_set (hf : disk.at? location ≠ some .folder) :
    SameFolders disk (disk.set location (.file bytes)) := by
  intro other
  by_cases ho : other = location
  · rw [ho, at?_set_self _ (ne_root hf)]
    exact ⟨nofun, fun h => absurd h hf⟩
  · rw [at?_set_ne _ ho]

theorem sameFolders_erase (hf : disk.at? location ≠ some .folder) : SameFolders disk (disk.erase location) := by
  intro other
  by_cases ho : other = location
  · rw [ho, at?_erase_self (ne_root hf)]
    exact ⟨nofun, fun h => absurd h hf⟩
  · rw [at?_erase_ne ho]

/-- Following names leads to where the steps lead. -/
theorem follow_eq {names : List String} {start : Location} (h : disk.follow start names = .ok location) :
    location = names.foldl Location.step start := by
  induction names generalizing start with
  | nil => exact (Except.ok.inj h).symm
  | cons name names ih =>
    rw [follow] at h
    split at h
    · split_ifs at h
      exact ih h
    · cases h
    · cases h

/-- Only the folders matter to who follows names. -/
theorem follow_congr (h : SameFolders disk disk') (names : List String) (start : Location) :
    (disk'.follow start names).toOption = (disk.follow start names).toOption := by
  induction names generalizing start with
  | nil => rfl
  | cons name names ih =>
    have hstart := h start
    rw [follow, follow]
    by_cases hf : disk.at? start = some .folder
    · rw [hf, hstart.mpr hf]
      dsimp only
      split_ifs
      · rfl
      · exact ih _
    · have hf' := hstart.not.mpr hf
      rcases hd : disk.at? start with - | - | bytes <;> rcases hd' : disk'.at? start with - | - | bytes'
      all_goals first | rfl | exact absurd hd hf | exact absurd hd' hf'

theorem resolve_eq (h : disk.resolve path = .ok location) : location = path.location := by
  rw [resolve, walk] at h
  split_ifs at h
  exact follow_eq h

theorem resolve_congr (h : SameFolders disk disk') : (disk'.resolve path).toOption = (disk.resolve path).toOption := by
  rw [resolve, resolve, walk, walk]
  split_ifs
  · rfl
  · rfl
  · exact follow_congr h _ _

theorem resolve_of_sameFolders (h : SameFolders disk disk') (hr : disk.resolve path = .ok path.location) :
    disk'.resolve path = .ok path.location := by
  have hto := @resolve_congr _ _ path h
  rcases hr' : disk'.resolve path with fault | place
  · rw [hr, hr'] at hto
    cases hto
  · rw [resolve_eq hr']

theorem held_eq_some : disk.held path = some bytes ↔ disk.read path = .ok bytes := by
  unfold held
  rcases disk.read path with fault | contents
  · exact ⟨nofun, nofun⟩
  · simp [Except.toOption]

/-- A path holds what stands at its place, if it can be followed. -/
theorem held_eq (disk : Disk) (path : Path) : disk.held path =
    (disk.resolve path).toOption.bind fun _ =>
      match disk.at? path.location with
      | some (.file bytes) => some bytes
      | _ => none := by
  rw [held, read, find]
  rcases hr : disk.resolve path with fault | place
  · rfl
  · rw [← resolve_eq hr]
    dsimp only [bind, Except.bind, Except.toOption, Option.bind]
    rcases disk.at? place with - | - | bytes <;> rfl

/-- What a path holds depends on the folders and on its own place alone. -/
theorem held_congr (h : SameFolders disk disk') (hp : disk'.at? path.location = disk.at? path.location) :
    disk'.held path = disk.held path := by
  rw [held_eq, held_eq, resolve_congr h, hp]

theorem held_set_ne (hf : disk.at? location ≠ some .folder) (hne : path.location ≠ location) :
    (disk.set location (.file bytes)).held path = disk.held path :=
  held_congr (sameFolders_set hf) (at?_set_ne _ hne)

theorem held_erase_ne (hf : disk.at? location ≠ some .folder) (hne : path.location ≠ location) :
    (disk.erase location).held path = disk.held path :=
  held_congr (sameFolders_erase hf) (at?_erase_ne hne)

theorem held_set_self (hr : disk.resolve path = .ok path.location) (hf : disk.at? path.location ≠ some .folder) :
    (disk.set path.location (.file bytes)).held path = some bytes := by
  rw [held_eq, resolve_of_sameFolders (sameFolders_set hf) hr, at?_set_self _ (ne_root hf)]
  rfl

theorem held_erase_self (hf : disk.at? path.location ≠ some .folder) :
    (disk.erase path.location).held path = none := by
  rw [held_eq, at?_erase_self (ne_root hf), Option.bind_fun_none]

/-- A path that holds something leads to a file. -/
theorem at?_of_held (h : (disk.held path).isSome) : disk.at? path.location ≠ some .folder := by
  intro hf
  rw [held_eq, hf, Option.bind_fun_none] at h
  cases h

theorem ReadsAgreeExcept.held {area changed : List Path} (h : ReadsAgreeExcept area changed disk disk') :
    AgreeExcept area changed disk.held disk'.held := fun other ho hne =>
  congrArg Except.toOption (h other ho hne)

theorem isFile_eq (disk : Disk) (path : Path) : disk.isFile path = (disk.held path).isSome := by
  simp only [isFile, held, read]
  rcases disk.find path with fault | - | bytes <;> rfl

theorem write_place (h : path.NamesFile) (hw : disk.write path bytes = .ok disk') :
    disk.resolve path = .ok path.location ∧ disk.at? path.location ≠ some .folder ∧
      disk' = disk.set path.location (.file bytes) := by
  have hb : disk.resolveBare path = disk.resolve path := by rw [resolveBare, h.bareNames, resolve]
  rw [write, hb] at hw
  rcases hr : disk.resolve path with fault | place
  · rw [hr] at hw
    cases hw
  · obtain rfl := resolve_eq hr
    rw [hr] at hw
    dsimp only [bind, Except.bind] at hw
    split_ifs at hw with hc
    exact ⟨rfl, fun hf => hc (.inr hf), (Except.ok.inj hw).symm⟩

theorem copy_place (ht : target.NamesFile) (hc : disk.copy source target = .ok disk') :
    ∃ bytes, disk.held source = some bytes ∧ disk.resolve target = .ok target.location ∧
      disk.at? target.location ≠ some .folder ∧ disk' = disk.set target.location (.file bytes) := by
  unfold copy at hc
  rcases hr : disk.read source with fault | bytes
  · rw [hr] at hc
    cases hc
  · rw [hr] at hc
    exact ⟨bytes, held_eq_some.mpr hr, write_place ht hc⟩

theorem rename_place (hr : disk.rename source target = .ok disk') :
    ∃ bytes, disk.held source = some bytes ∧ disk.resolve target = .ok target.location ∧
      disk.at? target.location ≠ some .folder ∧
      disk' = (disk.erase source.location).set target.location (.file bytes) := by
  rw [rename] at hr
  rcases hs : disk.resolve source with fault | old
  · rw [hs] at hr
    cases hr
  rcases ht : disk.resolve target with fault | new
  · rw [hs, ht] at hr
    cases hr
  obtain rfl := resolve_eq hs
  obtain rfl := resolve_eq ht
  rw [hs, ht] at hr
  change (if _ then _ else _) = _ at hr
  rcases hat : disk.at? source.location with - | - | bytes <;> simp only [hat] at hr
  · split_ifs at hr
  · split_ifs at hr
  · split_ifs at hr with hdots hf
    refine ⟨bytes, ?_, rfl, hf, (Except.ok.inj hr).symm⟩
    rw [held_eq, hs, hat]
    rfl

theorem remove_place (hr : disk.remove path = .ok disk') :
    (disk.held path).isSome ∧ disk' = disk.erase path.location := by
  unfold remove at hr
  rcases hread : disk.read path with fault | bytes
  · rw [hread] at hr
    cases hr
  rcases hp : disk.resolve path with fault | place
  · rw [hread, hp] at hr
    cases hr
  rw [hread, hp] at hr
  refine ⟨by rw [held_eq_some.mpr hread]; rfl, ?_⟩
  rw [← resolve_eq hp]
  exact (Except.ok.inj hr).symm

/-- A path that can be followed, with no folder in its place. -/
def Clear (disk : Disk) (path : Path) : Prop :=
  (disk.resolve path).isOk ∧ disk.at? path.location ≠ some .folder

instance (disk : Disk) (path : Path) : Decidable (disk.Clear path) :=
  inferInstanceAs (Decidable ((disk.resolve path).isOk = true ∧ disk.at? path.location ≠ some .folder))

theorem Clear.resolve (h : disk.Clear path) : disk.resolve path = .ok path.location := by
  obtain ⟨hr, -⟩ := h
  rcases he : disk.resolve path with fault | place
  · rw [he] at hr
    cases hr
  · rw [resolve_eq he]

theorem Clear.congr (h : disk.Clear path) (hs : SameFolders disk disk') : disk'.Clear path := by
  refine ⟨?_, (hs _).not.mpr h.2⟩
  rw [resolve_of_sameFolders hs h.resolve]
  rfl

theorem Clear.write (h : disk.Clear path) (bytes : Bytes) (hn : path.NamesFile) :
    disk.write path bytes = .ok (disk.set path.location (.file bytes)) := by
  have hb : disk.resolveBare path = disk.resolve path := by rw [resolveBare, hn.bareNames, Disk.resolve]
  rw [Disk.write, hb, h.resolve]
  exact if_neg (by simp [hn.endsInSlash, h.2])

theorem Clear.copy (h : disk.Clear target) (hn : target.NamesFile) (hs : disk.held source = some bytes) :
    disk.copy source target = .ok (disk.set target.location (.file bytes)) := by
  rw [Disk.copy, held_eq_some.mp hs]
  exact h.write bytes hn

theorem at?_of_held_eq (h : disk.held path = some bytes) :
    disk.resolve path = .ok path.location ∧ disk.at? path.location = some (.file bytes) := by
  rw [held_eq] at h
  rcases hr : disk.resolve path with fault | place
  · rw [hr] at h
    cases h
  · obtain rfl := resolve_eq hr
    rw [hr] at h
    refine ⟨rfl, ?_⟩
    rcases ha : disk.at? path.location with - | - | contents <;> rw [ha] at h <;> cases h
    rfl

theorem Clear.rename (h : disk.Clear target) (hn : source.NamesFile) (hn' : target.NamesFile)
    (hs : disk.held source = some bytes) : disk.rename source target =
      .ok ((disk.erase source.location).set target.location (.file bytes)) := by
  obtain ⟨hr, ha⟩ := at?_of_held_eq hs
  rw [Disk.rename, hr, h.resolve]
  change (if _ then _ else _) = _
  rw [if_neg (by simp [hn.endsInDots, hn'.endsInDots])]
  simp only [ha]
  exact if_neg h.2

theorem remove_of_held (h : disk.held path = some bytes) : disk.remove path = .ok (disk.erase path.location) := by
  rw [remove, held_eq_some.mp h, (at?_of_held_eq h).1]
  rfl

/-! An operation leaves alone what a path to another place holds. -/

theorem held_write_ne (h : path.NamesFile) (hw : disk.write path bytes = .ok disk')
    (hne : other.location ≠ path.location) : disk'.held other = disk.held other := by
  obtain ⟨-, hf, rfl⟩ := write_place h hw
  exact held_set_ne hf hne

theorem held_copy_ne (ht : target.NamesFile) (hc : disk.copy source target = .ok disk')
    (hne : other.location ≠ target.location) : disk'.held other = disk.held other := by
  obtain ⟨bytes, -, -, hf, rfl⟩ := copy_place ht hc
  exact held_set_ne hf hne

theorem held_rename_ne (hr : disk.rename source target = .ok disk') (hs : other.location ≠ source.location)
    (ht : other.location ≠ target.location) : disk'.held other = disk.held other := by
  obtain ⟨bytes, hheld, -, hf, rfl⟩ := rename_place hr
  have hsource := at?_of_held (Option.isSome_of_eq_some hheld)
  rw [held_set_ne ((sameFolders_erase hsource _).not.mpr hf) ht, held_erase_ne hsource hs]

theorem held_remove_ne (hr : disk.remove path = .ok disk') (hne : other.location ≠ path.location) :
    disk'.held other = disk.held other := by
  obtain ⟨hs, rfl⟩ := remove_place hr
  exact held_erase_ne (at?_of_held hs) hne

end Disk

open Holdings (AgreeExcept)

theorem Host.apply_cases (operation : Disk → Except FileFault Disk) {host host' : Host}
    {result : Except FileFault Unit} (h : Host.apply operation host = (result, host')) :
    (result = .ok () ∧ operation host.disk = .ok host'.disk) ∨ (result ≠ .ok () ∧ host' = host) := by
  unfold Host.apply at h
  rcases ho : operation host.disk with fault | disk' <;> rw [ho] at h <;> cases h
  · exact .inr ⟨by simp, rfl⟩
  · exact .inl ⟨rfl, rfl⟩

/-- The laws hold on every host for paths that lead to places of their own. -/
theorem Host.lawful_of_apart {area : List Path} (ha : Path.Apart area) :
    Host.fileSystem.Lawful (fun host => host.disk.held) area := by
  have hne : ∀ {path other : Path}, path ∈ area → other ∈ area → other ∉ [path] →
      other.location ≠ path.location := fun hp ho hm he =>
    hm (List.mem_singleton.mpr (ha.injective _ ho _ hp he))
  constructor
  case write =>
    intro path bytes s result s' hp h
    obtain ⟨rfl, hw⟩ | ⟨hfail, rfl⟩ := Host.apply_cases (·.write _ _) h
    · refine ⟨fun other ho hm => Disk.held_write_ne (ha.namesFile _ hp) hw (hne hp ho hm), fun _ => ?_⟩
      obtain ⟨hr, hf, hd⟩ := Disk.write_place (ha.namesFile _ hp) hw
      rw [hd]
      exact Disk.held_set_self hr hf
    · exact ⟨.refl, fun he => absurd he hfail⟩
  case copy =>
    intro source target s result s' hs ht hdiffer h
    obtain ⟨rfl, hc⟩ | ⟨hfail, rfl⟩ := Host.apply_cases (·.copy _ _) h
    · refine ⟨fun other ho hm => Disk.held_copy_ne (ha.namesFile _ ht) hc (hne ht ho hm), fun _ => ?_⟩
      obtain ⟨bytes, hb, hr, hf, hd⟩ := Disk.copy_place (ha.namesFile _ ht) hc
      rw [hd, hb]
      exact ⟨rfl, Disk.held_set_self hr hf⟩
    · exact ⟨.refl, fun he => absurd he hfail⟩
  case rename =>
    intro source target s result s' hs ht hdiffer h
    obtain ⟨rfl, hr⟩ | ⟨hfail, rfl⟩ := Host.apply_cases (·.rename _ _) h
    · refine ⟨fun _ => ⟨fun other ho hm => ?_, ?_⟩, fun he => absurd rfl he⟩
      · exact Disk.held_rename_ne hr (hne hs ho fun h => hm (by simp_all)) (hne ht ho fun h => hm (by simp_all))
      · obtain ⟨bytes, hb, hr, hf, hd⟩ := Disk.rename_place hr
        have hsource := Disk.at?_of_held (Option.isSome_of_eq_some hb)
        have hsame := Disk.sameFolders_erase hsource
        have hf' := (hsame _).not.mpr hf
        rw [hd, hb]
        refine ⟨rfl, Disk.held_set_self (Disk.resolve_of_sameFolders hsame hr) hf', ?_⟩
        rw [Disk.held_set_ne hf' (hne ht hs (by simpa using hdiffer)), Disk.held_erase_self hsource]
    · exact ⟨fun he => absurd he hfail, fun _ => .refl⟩
  case remove =>
    intro path s result s' hp h
    obtain ⟨rfl, hr⟩ | ⟨hfail, rfl⟩ := Host.apply_cases (·.remove _) h
    · refine ⟨fun _ => ⟨fun other ho hm => Disk.held_remove_ne hr (hne hp ho hm), ?_⟩, fun he => absurd rfl he⟩
      obtain ⟨hs, hd⟩ := Disk.remove_place hr
      rw [hd]
      exact ⟨hs, Disk.held_erase_self (Disk.at?_of_held hs)⟩
    · exact ⟨fun he => absurd he hfail, fun _ => .refl⟩
  case isFile =>
    intro path s answer s' hp h
    cases h
    exact ⟨Disk.isFile_eq _ _, .refl⟩
  case unload => exact fun _ _ => .refl
  case folder => exact fun hp hf => absurd hf (ha.namesFile _ hp).fileName?_ne_none

end HotPatch
