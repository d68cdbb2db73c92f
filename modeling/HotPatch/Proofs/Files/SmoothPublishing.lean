import HotPatch.Proofs.Files.LoggedPublishing

/-!
# Publications in which nothing fails

A file system is prompt if its operations succeed wherever their sources are
there. On such a file system publishing succeeds call by call, since it works on
files that it has made itself. A script without faults is prompt on a disk that
has the folders on the way and none in the place of a file.
-/

namespace HotPatch

variable {σ : Type}

/-- Operations on the paths of an area succeed if their sources hold something, and leave a state in
which this is so again. -/
structure FileSystem.Prompt (fs : FileSystem σ) (held : σ → Holdings) (ready : σ → Prop) (area : List Path) :
    Prop where
  write : ∀ {path} bytes {s}, path ∈ area → ready s → ∃ s', fs.write path bytes s = (.ok (), s') ∧ ready s'
  copy : ∀ {source target s}, source ∈ area → target ∈ area → ready s → (held s source).isSome →
    ∃ s', fs.copy source target s = (.ok (), s') ∧ ready s'
  rename : ∀ {source target s}, source ∈ area → target ∈ area → ready s → (held s source).isSome →
    ∃ s', fs.rename source target s = (.ok (), s') ∧ ready s'
  remove : ∀ {path s}, path ∈ area → ready s → (held s path).isSome →
    ∃ s', fs.remove path s = (.ok (), s') ∧ ready s'
  isFile : ∀ {path s}, path ∈ area → ready s → ready (fs.isFile path s).2
  unload : ∀ path {s}, ready s → ready (fs.unload path s).2

namespace Publish

variable {fs : FileSystem σ} {held : σ → Holdings} {ready : σ → Prop} {paths : PublishedPaths}
  {written : Image.Written} {tag : String} {s : σ}

/-- The computation comes to its end and leaves a state that is ready. -/
abbrev Succeeds {α : Type} (ready : σ → Prop) (attempt : Attempt σ α) (s : σ) : Prop :=
  Ensures attempt s (fun _ s' => ready s') fun _ _ => False

/-- What else is known of the way on of a computation that does not fail. -/
theorem Succeeds.along {α : Type} {attempt : Attempt σ α} {done : α → σ → Prop} {cut : Interruption → σ → Prop}
    (h : Succeeds ready attempt s) (h' : Ensures attempt s done cut) :
    Ensures attempt s (fun value s' => ready s' ∧ done value s') (fun _ _ => False) :=
  (Ensures.and h h').mono (fun _ _ h => h) fun _ _ h => h.1

theorem carryOut_succeeds {operation : StateM σ (Except FileFault Unit)} {progress : Progress} {step : String}
    (h : ∃ s', operation s = (.ok (), s') ∧ ready s') : Succeeds ready (carryOut operation progress step) s := by
  obtain ⟨s', hr, hready⟩ := h
  rw [Succeeds, Ensures, carryOut, bind_apply, lift_apply, hr]
  exact hready

section Steps

variable {area : List Path} (prompt : fs.Prompt held ready area) {progress : Progress}

include prompt

theorem writePending_succeeds {file : Path × Bytes} (hp : file.1.sibling "pending" tag ∈ area) (h : ready s) :
    Succeeds ready (writePending fs tag progress file) s := by
  apply (carryOut_succeeds (prompt.write _ hp h)).bind
  exact fun _ _ h => h

theorem backUp_succeeds (law : fs.Lawful held area) {path : Path} (hp : path ∈ area)
    (hb : path.sibling "backup" tag ∈ area) (h : ready s) : Succeeds ready (backUp fs tag progress path) s := by
  have hasked : Ensures (liftM (fs.isFile path) : Attempt σ Bool) s
      (fun answer s₁ => ready s₁ ∧ (answer → (held s₁ path).isSome)) (fun _ _ => False) := by
    rw [Ensures, lift_apply]
    obtain ⟨ha, hsame⟩ := law.isFile hp (rfl : fs.isFile path s = (_, _))
    refine ⟨prompt.isFile hp h, fun hs => ?_⟩
    rwa [hsame path hp List.not_mem_nil, ← ha]
  apply hasked.bind
  rintro answer s₁ ⟨hready, hsome⟩
  split_ifs with ha
  · apply (carryOut_succeeds (prompt.copy hp hb hready (hsome ha))).bind
    exact fun _ _ h => h
  · exact hready

theorem install_succeeds {pending target : Path} (hp : pending ∈ area) (ht : target ∈ area) (h : ready s)
    (hs : (held s pending).isSome) : Succeeds ready (install fs progress (pending, target)) s := by
  apply (carryOut_succeeds (prompt.rename hp ht h hs)).bind
  exact fun _ _ h => h

/-- Files that hold something can be removed one after another. -/
theorem forM_remove_ready (law : fs.Lawful held area) {made : List (Path × Path)} (hnd : (made.map (·.1)).Nodup)
    (hm : ∀ backup ∈ made, backup.1 ∈ area ∧ (held s backup.1).isSome) (h : ready s) :
    ready ((made.forM fun backup => exchange.discard (fs.remove backup.1)) s).2 := by
  induction made generalizing s with
  | nil => exact h
  | cons backup made ih =>
    rw [List.map_cons, List.nodup_cons] at hnd
    rw [List.forall_mem_cons] at hm
    obtain ⟨s₁, hr, h₁⟩ := prompt.remove hm.1.1 h hm.1.2
    have hd : exchange.discard (fs.remove backup.1) s = ((), s₁) := by
      unfold exchange.discard
      rw [state_bind_apply, hr]
      rfl
    rw [List.forM_eq_forM, List.forM_cons, state_bind_apply, hd]
    apply ih hnd.2 _ h₁
    intro other ho
    refine ⟨(hm.2 other ho).1, ?_⟩
    rw [((law.remove hm.1.1 hr).1 rfl).1 _ (hm.2 other ho).1]
    · exact (hm.2 other ho).2
    · intro he
      exact hnd.1 (List.mem_singleton.mp he ▸ List.mem_map_of_mem ho)

end Steps

section Attempt

variable (law : fs.Lawful held (attemptArea paths tag)) (prompt : fs.Prompt held ready (attemptArea paths tag))

include law prompt

theorem prepare_succeeds (h : ready s) : Succeeds ready (prepare fs paths written tag) s := by
  unfold prepare
  have hwrites : Succeeds ready ([(paths.image, written.image), (paths.symbols, written.symbols)].foldlM
      (writePending fs tag) {}) s := by
    refine Ensures.foldlM (fun progress file hm s hs => writePending_succeeds prompt ?_ hs) _ h
    rcases List.mem_pair.mp hm with rfl | rfl <;> simp [attemptArea, temporaries, pendings]
  apply hwrites.bind
  intro progress s hs
  have hbackups : Succeeds ready ([paths.image, paths.symbols].foldlM (backUp fs tag) progress) s := by
    refine Ensures.foldlM (fun progress path hm s hs => backUp_succeeds prompt law ?_ ?_ hs) _ hs
    · rcases List.mem_pair.mp hm with rfl | rfl <;> simp [attemptArea]
    · rcases List.mem_pair.mp hm with rfl | rfl <;> simp [attemptArea, temporaries, backups]
  apply hbackups.bind
  intro progress s hs
  have hunload : Succeeds ready (liftM (fs.unload paths.image) : Attempt σ Unit) s :=
    .lift (prompt.unload paths.image hs)
  apply hunload.bind
  exact fun _ _ h => h

theorem installs_succeed {made : List (Path × Path)} (hnd : (attemptArea paths tag).Nodup) (h : ready s)
    (himage : (held s (paths.image.sibling "pending" tag)).isSome)
    (hsymbols : (held s (paths.symbols.sibling "pending" tag)).isSome) :
    Succeeds ready (((pendings paths tag).zip [paths.image, paths.symbols]).foldlM (install fs)
      { pending := pendings paths tag, backups := made }) s := by
  have hdis := hnd
  simp only [attemptArea, temporaries, pendings, backups, List.map_cons, List.map_nil, List.cons_append,
    List.nil_append, List.nodup_cons, List.mem_cons, List.not_mem_nil, or_false, not_or] at hdis
  obtain ⟨⟨-, hipi, hips, -⟩, -, ⟨hpp, -⟩, -⟩ := hdis
  simp only [pendings, List.zip_cons_cons, List.zip_nil_right, List.foldlM_cons, List.foldlM_nil]
  have hpi : paths.image.sibling "pending" tag ∈ attemptArea paths tag := by
    simp [attemptArea, temporaries, pendings]
  have hps : paths.symbols.sibling "pending" tag ∈ attemptArea paths tag := by
    simp [attemptArea, temporaries, pendings]
  have hfirst : Succeeds ready (install fs
      ⟨[paths.image.sibling "pending" tag, paths.symbols.sibling "pending" tag], made, []⟩
      (paths.image.sibling "pending" tag, paths.image)) s :=
    install_succeeds prompt hpi (by simp [attemptArea]) h himage
  apply (hfirst.along (install_ensures law hpi (by simp [attemptArea]) (Ne.symm hipi))).bind
  rintro progress s₁ ⟨hs₁, -, ha, -⟩
  rw [← ha _ hps (by simp [Ne.symm hpp, Ne.symm hips])] at hsymbols
  apply (install_succeeds prompt hps (by simp [attemptArea]) hs₁ hsymbols).bind
  exact fun _ _ h => h

/-- Publishing on a prompt file system keeps it ready to the end. -/
theorem publish_ready {extensions : Extensions} {destination : Path} (hpaths : extensions.paths destination = paths)
    (hnd : (attemptArea paths tag).Nodup) (h : ready s) (written : Image.Written) :
    ready (publish fs extensions destination written tag s).2 := by
  rcases hc : extensions.check with error | ⟨⟩
  · rw [publish_of_error fs destination written tag hc]
    exact h
  rw [publish_of_ok fs destination written tag hc, hpaths]
  have himage := image_notMem hnd
  have hsymbols := symbols_notMem hnd
  have htemp : (temporaries paths tag).Nodup := (List.nodup_cons.mp (List.nodup_cons.mp hnd).2).2
  have hbackup : ∀ backup ∈ madeBackups paths tag (held s), backup.1 ∈ (backups paths tag).map (·.1) :=
    fun backup hm => List.mem_map_of_mem ((madeBackups_sublist _).subset hm)
  have hrun : Ensures (replace fs paths written tag) s
      (fun progress s' => ready s' ∧ progress.backups = madeBackups paths tag (held s) ∧
        ∀ backup ∈ madeBackups paths tag (held s), (held s' backup.1).isSome) (fun _ _ => False) := by
    rw [replace_eq]
    apply ((prepare_succeeds law prompt h).along (prepare_steps law himage hsymbols)).bind
    rintro progress s₁ ⟨hs₁, rfl, -, hprepared⟩
    obtain ⟨hi, hs, hcopies⟩ := hprepared htemp
    apply ((installs_succeed law prompt hnd hs₁ (Option.isSome_of_eq_some hi) (Option.isSome_of_eq_some hs)).along
      (installs_steps law hnd hi hs)).mono _ fun _ _ h => h
    rintro progress s₂ ⟨hs₂, hb, ha, -⟩
    refine ⟨hs₂, hb, fun backup hm => ?_⟩
    have ht : backup.1 ∈ temporaries paths tag := List.mem_append_right _ (hbackup backup hm)
    rw [ha _ (mem_attemptArea ht), hcopies backup hm]
    · exact (List.mem_filter.mp hm).2
    · intro hc
      rcases List.mem_append.mp hc with hc | hc
      · exact (List.nodup_append.mp htemp).2.2 _ hc _ (hbackup backup hm) rfl
      · rcases List.mem_pair.mp hc with he | he
        · exact himage (he ▸ ht)
        · exact hsymbols (he ▸ ht)
  rw [exchange_eq]
  rw [Ensures] at hrun
  rcases hrep : replace fs paths written tag s with ⟨interruption | progress, s₁⟩ <;>
    simp only [hrep] at hrun ⊢
  obtain ⟨hs₁, hb, hsome⟩ := hrun
  rw [hb]
  refine forM_remove_ready prompt law ?_ (fun backup hm => ⟨?_, hsome backup hm⟩) hs₁
  · exact (List.nodup_append.mp htemp).2.1.sublist ((madeBackups_sublist _).map _)
  · exact mem_attemptArea (List.mem_append_right _ (hbackup backup hm))

end Attempt
end Publish

namespace Script

/-- A script without faults and without failures, on a disk with certain folders. -/
structure Smooth (disk : Disk) (script : Script) : Prop where
  faults : script.faults = []
  calls : ∀ call ∈ script.calls, call.succeeded
  folders : Disk.SameFolders disk script.host.disk

variable {disk : Disk} {script : Script}

theorem Smooth.log {host : Host} (h : Smooth disk script) (hf : Disk.SameFolders script.host.disk host.disk) {call : Call}
    (hc : call.succeeded) : Smooth disk { script with host, calls := script.calls ++ [call] } := by
  refine ⟨h.faults, fun other hm => ?_, h.folders.trans hf⟩
  rcases List.mem_append.mp hm with hm | hm
  · exact h.calls other hm
  · exact List.mem_singleton.mp hm ▸ hc

theorem perform_smooth (change : Disk → Except FileFault Disk) {operation : Operation} {paths : List Path}
    (h : Smooth disk script) {next : Disk} (hc : change script.host.disk = .ok next)
    (hf : Disk.SameFolders script.host.disk next) :
    ∃ script', perform operation paths (Host.apply change) script = (.ok (), script') ∧ Smooth disk script' := by
  have hplanned : script.isPlanned operation = false := by simp [isPlanned, h.faults]
  have happly : Host.apply change script.host = (.ok (), { script.host with disk := next }) := by
    rw [Host.apply, hc]
  refine ⟨{ script with
    host := { script.host with disk := next }
    calls := script.calls ++ [.change operation paths .done] }, ?_, h.log hf rfl⟩
  simp only [perform, hplanned, happly]
  rfl

/-- A script is prompt where nothing stands in the way of the files. -/
theorem prompt {area : List Path} (ha : ∀ path ∈ area, path.NamesFile ∧ disk.Clear path) :
    Script.fileSystem.Prompt (fun script => script.host.disk.held) (Smooth disk) area where
  write {path} bytes {script} hp h := by
    have hclear := (ha _ hp).2.congr h.folders
    exact perform_smooth (·.write path bytes) h (hclear.write bytes (ha _ hp).1) (Disk.sameFolders_set hclear.2)
  copy {source target script} hs ht h hsome := by
    have hclear := (ha _ ht).2.congr h.folders
    obtain ⟨bytes, hb⟩ := Option.isSome_iff_exists.mp hsome
    exact perform_smooth (·.copy source target) h (hclear.copy (ha _ ht).1 hb) (Disk.sameFolders_set hclear.2)
  rename {source target script} hs ht h hsome := by
    have hclear := (ha _ ht).2.congr h.folders
    obtain ⟨bytes, hb⟩ := Option.isSome_iff_exists.mp hsome
    have hsource := Disk.sameFolders_erase (Disk.at?_of_held hsome)
    exact perform_smooth (·.rename source target) h (hclear.rename (ha _ hs).1 (ha _ ht).1 hb)
      (hsource.trans (Disk.sameFolders_set ((hsource _).not.mpr hclear.2)))
  remove {path script} hp h hsome := by
    obtain ⟨bytes, hb⟩ := Option.isSome_iff_exists.mp hsome
    exact perform_smooth (·.remove path) h (Disk.remove_of_held hb) (Disk.sameFolders_erase (Disk.at?_of_held hsome))
  isFile _ h := h.log (fun _ => Iff.rfl) rfl
  unload _ {_} h := ⟨h.faults, h.calls, h.folders⟩

end Script

/-- Where nothing stands in the way of the files of an attempt, no call fails, and no folder comes or goes. -/
theorem Publish.calls_succeed {extensions : Extensions} {destination : Path} {tag : String} {host : Host}
    (hapart : Path.Apart (attemptArea (extensions.paths destination) tag))
    (hnd : (attemptArea (extensions.paths destination) tag).Nodup)
    (hclear : ∀ path ∈ attemptArea (extensions.paths destination) tag, host.disk.Clear path)
    (written : Image.Written) :
    (∀ call ∈ calls extensions destination written tag host, call.succeeded) ∧
      Disk.SameFolders host.disk (publish Host.fileSystem extensions destination written tag host).2.disk := by
  have hprompt := Script.prompt fun path hp => ⟨hapart.namesFile path hp, hclear path hp⟩
  have hstart : Script.Smooth host.disk { host } := ⟨rfl, List.forall_mem_nil _, fun _ => Iff.rfl⟩
  have hend := publish_ready (Script.lawful_of_host (Host.lawful_of_apart hapart)) hprompt rfl hnd hstart written
  exact ⟨hend.calls, (publish_records extensions destination written tag host).2.1 ▸ hend.folders⟩

end HotPatch
