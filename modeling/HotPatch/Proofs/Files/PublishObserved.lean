import HotPatch.Proofs.Files.PublishOutcome
import HotPatch.Proofs.Files.TracedFileSystem
import HotPatch.Proofs.Image.Symbols

/-!
# What an observer sees of a pair being published

At any time the destination holds the old pair, the new image over the old
symbols, or the new pair. The digest in the symbols tells the second from the
others, so files that do not belong together are never taken for a pair.
-/

namespace HotPatch.Publish

open Holdings (AgreeExcept)

variable {σ : Type} {fs : FileSystem σ} {disk : σ → Disk} {paths : PublishedPaths} {written : Image.Written}
  {tag : String}

/-- What the comparison of a pair depends on: the image, and what the symbols read as. -/
def seen (paths : PublishedPaths) (disk : Disk) : Option Bytes × Except FileFault Bytes :=
  (disk.held paths.image, disk.read paths.symbols)

theorem seen_of_agree {changed : List Path} {before after : Disk}
    (h : Disk.ReadsAgreeExcept (attemptArea paths tag) changed before after) (hi : paths.image ∉ changed)
    (hs : paths.symbols ∉ changed) : seen paths after = seen paths before := by
  rw [seen, seen, h.held _ (by simp [attemptArea]) hi, h _ (by simp [attemptArea]) hs]

section Calm

variable (himage : paths.image ∉ temporaries paths tag) (hsymbols : paths.symbols ∉ temporaries paths tag)
  (keeps : fs.KeepsReads disk (attemptArea paths tag))

include keeps in
theorem calm_isFile {path : Path} (hp : path ∈ attemptArea paths tag) :
    Calm (fun s => seen paths (disk s)) (fs.traced.isFile path) :=
  Calm.record fun _ => seen_of_agree (keeps.isFile hp rfl) (by simp) (by simp)

theorem calm_carryOut {look : σ → Option Bytes × Except FileFault Bytes}
    {operation : StateM (Traced σ) (Except FileFault Unit)} (h : Calm look operation) (progress : Progress)
    (step : String) : Calm look (carryOut operation progress step).run := by
  refine Calm.attempt_bind (Calm.lift h) fun result => ?_
  rcases result with fault | ⟨⟩
  · exact .pure _
  · exact .pure _

include himage hsymbols

/-- Whatever changes a file of the attempt only keeps what is seen of the pair. -/
theorem seen_of_temporary {path : Path} {before after : Disk} (hp : path ∈ temporaries paths tag)
    (h : Disk.ReadsAgreeExcept (attemptArea paths tag) [path] before after) :
    seen paths after = seen paths before :=
  seen_of_agree h (fun hm => himage (List.mem_singleton.mp hm ▸ hp))
    fun hm => hsymbols (List.mem_singleton.mp hm ▸ hp)

include keeps

theorem calm_remove {path : Path} (hp : path ∈ temporaries paths tag) :
    Calm (fun s => seen paths (disk s)) (fs.traced.remove path) :=
  Calm.record fun _ => seen_of_temporary himage hsymbols hp (keeps.remove (mem_attemptArea hp) rfl)

theorem calm_writePending {progress : Progress} {file : Path × Bytes}
    (hp : file.1.sibling "pending" tag ∈ temporaries paths tag) :
    Calm (fun s => seen paths (disk s)) (writePending fs.traced tag progress file).run := by
  refine Calm.attempt_bind (calm_carryOut (Calm.record fun s => ?_) _ _) fun _ => .pure _
  exact seen_of_temporary himage hsymbols hp (keeps.write (mem_attemptArea hp) rfl)

theorem calm_backUp {progress : Progress} {path : Path} (hp : path ∈ attemptArea paths tag)
    (hb : path.sibling "backup" tag ∈ temporaries paths tag) :
    Calm (fun s => seen paths (disk s)) (backUp fs.traced tag progress path).run := by
  refine Calm.attempt_bind (Calm.lift (calm_isFile keeps hp)) fun answer => ?_
  rcases answer with - | -
  · exact .pure _
  · refine Calm.attempt_bind (calm_carryOut (Calm.record fun s => ?_) _ _) fun _ => .pure _
    exact seen_of_temporary himage hsymbols hb (keeps.copy hp (mem_attemptArea hb) rfl)

/-- Nothing is seen of an attempt before the first file is installed. -/
theorem calm_prepare : Calm (fun s => seen paths (disk s)) (prepare fs.traced paths written tag).run := by
  have hpending : ∀ file ∈ [(paths.image, written.image), (paths.symbols, written.symbols)],
      file.1.sibling "pending" tag ∈ temporaries paths tag := by
    simp [temporaries, pendings]
  have hbackup : ∀ path ∈ [paths.image, paths.symbols],
      path ∈ attemptArea paths tag ∧ path.sibling "backup" tag ∈ temporaries paths tag := by
    simp [attemptArea, temporaries, backups]
  refine Calm.attempt_bind (Calm.foldlM fun progress file hm => ?_) fun progress => ?_
  · exact calm_writePending himage hsymbols keeps (hpending file hm)
  refine Calm.attempt_bind (Calm.foldlM fun progress path hm => ?_) fun progress => ?_
  · exact calm_backUp himage hsymbols keeps (hbackup path hm).1 (hbackup path hm).2
  refine Calm.attempt_bind (Calm.lift (Calm.record fun s => ?_)) fun _ => .pure _
  exact seen_of_agree (keeps.unload paths.image s) (by simp) (by simp)

theorem calm_discard {path : Path} (hp : path ∈ temporaries paths tag) :
    Calm (fun s => seen paths (disk s)) (discard fs.traced path) := by
  refine (calm_isFile keeps (mem_attemptArea hp)).bind fun answer => ?_
  rcases answer with - | -
  · exact .pure _
  · exact (calm_remove himage hsymbols keeps hp).bind fun _ => .pure _

/-- What a roll-back does once it has taken back what was installed. -/
def cleanUp (fs : FileSystem σ) (extensions : Extensions) (image : Path) (interruption : Interruption)
    (restored : List (Bool × List Path)) : StateM σ Error := do
  let backups ← interruption.progress.backups.mapM (discardBackup fs interruption.progress.installed)
  let pending ← interruption.progress.pending.mapM (discard fs)
  let leftovers := (restored.map (·.2)).flatten ++ backups.flatten ++ pending.flatten
  if restored.all (·.1) then return .publish image interruption.message leftovers
  else return .publishInconsistent image (image.withExtension extensions.symbols) interruption.message leftovers

omit himage hsymbols keeps in
theorem rollBack_eq_cleanUp (extensions : Extensions) (image : Path) (interruption : Interruption) :
    rollBack fs extensions image interruption =
      interruption.progress.installed.reverse.mapM (takeBack fs interruption.progress.backups) >>=
        cleanUp fs extensions image interruption := rfl

theorem calm_cleanUp {extensions : Extensions} {image : Path} {interruption : Interruption}
    {restored : List (Bool × List Path)} {before now : Holdings}
    (h : Restorable paths written tag before interruption.progress now) :
    Calm (fun s => seen paths (disk s)) (cleanUp fs.traced extensions image interruption restored) := by
  refine Calm.bind (Calm.mapM fun backup hm => ?_) fun copies => ?_
  · unfold discardBackup
    split_ifs
    · exact .pure _
    · exact calm_discard himage hsymbols keeps (h.backups_mem (List.mem_map_of_mem hm))
  refine Calm.bind (Calm.mapM fun path hm => ?_) fun left => ?_
  · exact calm_discard himage hsymbols keeps (h.pending_mem hm)
  dsimp only
  split_ifs
  · exact .pure _
  · exact .pure _

theorem calm_removeBackups {made : List (Path × Path)}
    (hm : ∀ backup ∈ made, backup.1 ∈ temporaries paths tag) :
    Calm (fun s => seen paths (disk s))
      (made.forM fun backup => exchange.discard (fs.traced.remove backup.1)) :=
  Calm.forM fun backup hb => (calm_remove himage hsymbols keeps (hm backup hb)).bind fun _ => .pure _

end Calm

/-- A pair may be seen as before, or as the new image over the old symbols, or as written. -/
def Foreseen (written : Image.Written) (before now : Option Bytes × Except FileFault Bytes) : Prop :=
  now = before ∨ now = (some written.image, before.2) ∨ now = (some written.image, .ok written.symbols)

/-- In all states the pair is seen in one of these ways. -/
abbrev Orderly (disk : σ → Disk) (paths : PublishedPaths) (written : Image.Written) (before : Disk)
    (state : Traced σ) : Prop :=
  Throughout (fun s => Foreseen written (seen paths before) (seen paths (disk s))) state

section Run

variable {before : Disk} {state : Traced σ}
  (law : fs.Lawful (fun s => (disk s).held) (attemptArea paths tag))
  (keeps : fs.KeepsReads disk (attemptArea paths tag))

include keeps in
/-- Installing is one operation, which changes no other file. -/
theorem install_traced {progress : Progress} {pending target : Path} (hp : pending ∈ attemptArea paths tag)
    (ht : target ∈ attemptArea paths tag) :
    Ensures (install fs.traced progress (pending, target)) state
      (fun _ state' => state'.2 = state'.1 :: state.2 ∧ Disk.ReadsAgreeExcept (attemptArea paths tag)
        [pending, target] (disk state.1) (disk state'.1))
      (fun _ state' => state'.2 = state'.1 :: state.2 ∧ Disk.ReadsAgreeExcept (attemptArea paths tag) []
        (disk state.1) (disk state'.1)) := by
  unfold install
  refine Ensures.bind ((carryOut_ensures (fun state' h => ?_) fun fault state' h => ?_).mono
    (fun _ _ h => h) fun _ _ h => h.2) fun _ _ h => Ensures.pure h
  · obtain ⟨hr, hl⟩ := record_eq.mp h
    exact ⟨hl, (keeps.rename hp ht hr).1⟩
  · obtain ⟨hr, hl⟩ := record_eq.mp h
    exact ⟨hl, (keeps.rename hp ht hr).2 (by simp)⟩

include keeps in
/-- Taking back is one operation, on the copy and on the file that it was made of. -/
theorem takeBack_traced {made : List (Path × Path)} {target : Path} {answer : Bool × List Path}
    {state' : Traced σ} (hm : ∀ backup ∈ made, backup.1 ∈ attemptArea paths tag)
    (ht : target ∈ attemptArea paths tag) (h : takeBack fs.traced made target state = (answer, state')) :
    state'.2 = state'.1 :: state.2 ∧ Disk.ReadsAgreeExcept (attemptArea paths tag)
      (target :: made.map (·.1)) (disk state.1) (disk state'.1) := by
  unfold takeBack at h
  rcases hf : made.find? fun backup => backup.2.same target with - | ⟨backup, original⟩ <;>
    simp only [hf, state_bind_apply] at h
  · rcases hr : fs.traced.remove target state with ⟨result, state₁⟩
    rw [hr] at h
    cases h
    obtain ⟨hr, hl⟩ := record_eq.mp hr
    exact ⟨hl, (keeps.remove ht hr).mono (by simp)⟩
  · have hb : (backup, original) ∈ made := List.mem_of_find?_eq_some hf
    rcases hr : fs.traced.rename backup target state with ⟨result, state₁⟩
    rw [hr] at h
    cases h
    obtain ⟨hr, hl⟩ := record_eq.mp hr
    refine ⟨hl, (keeps.rename (hm _ hb) ht hr).1.mono ?_⟩
    simpa using Or.inr ⟨original, hb⟩

include law keeps

/-- While the files are installed, the image comes first, and no symbols but the old ones stand before an
interruption. -/
theorem installs_observed (hnd : (attemptArea paths tag).Nodup)
    (h : Prepared paths written tag before.held (disk state.1).held)
    (hseen : seen paths (disk state.1) = seen paths before)
    (ht : Orderly disk paths written before state) :
    Ensures (((pendings paths tag).zip [paths.image, paths.symbols]).foldlM (install fs.traced)
        { pending := pendings paths tag, backups := madeBackups paths tag before.held }) state
      (fun _ state' => Orderly disk paths written before state')
      (fun _ state' => Orderly disk paths written before state' ∧
        (disk state'.1).read paths.symbols = before.read paths.symbols) := by
  have hdis := hnd
  simp only [attemptArea, temporaries, pendings, backups, List.map_cons, List.map_nil, List.cons_append,
    List.nil_append, List.nodup_cons, List.mem_cons, List.not_mem_nil, or_false, not_or] at hdis
  obtain ⟨⟨his, hipi, hips, -⟩, ⟨hspi, hsps, -⟩, ⟨hpp, -⟩, -⟩ := hdis
  have hold : (disk state.1).read paths.symbols = before.read paths.symbols := congrArg Prod.snd hseen
  have harea : ∀ path ∈ pendings paths tag, path ∈ attemptArea paths tag := fun path hm =>
    mem_attemptArea (List.mem_append_left _ hm)
  simp only [pendings, List.zip_cons_cons, List.zip_nil_right, List.foldlM_cons, List.foldlM_nil]
  refine Ensures.bind (((install_ensures law.traced (harea _ (by simp [pendings])) (by simp [attemptArea])
    (Ne.symm hipi)).and (install_traced keeps (harea _ (by simp [pendings])) (by simp [attemptArea]))).mono
    (fun _ _ h => h) ?_) ?_
  · rintro interruption state' ⟨-, hl, ha⟩
    have hs := seen_of_agree ha (by simp) (by simp)
    exact ⟨ht.next hl (.inl (hs.trans hseen)), (congrArg Prod.snd hs).trans hold⟩
  · rintro progress state₁ ⟨⟨-, ha, -, hi, -⟩, hl, hreads⟩
    rw [h.image] at hi
    have hsymbols : (disk state₁.1).held (paths.symbols.sibling "pending" tag) = some written.symbols := by
      rw [ha _ (harea _ (by simp [pendings])) (by simp [Ne.symm hpp, Ne.symm hips]), h.symbols]
    have hread : (disk state₁.1).read paths.symbols = before.read paths.symbols := by
      rw [hreads _ (by simp [attemptArea]) (by simp [hspi, Ne.symm his]), hold]
    have hhalf : seen paths (disk state₁.1) = (some written.image, before.read paths.symbols) :=
      Prod.ext hi hread
    have ht₁ := ht.next hl (.inr (.inl hhalf))
    refine Ensures.bind (((install_ensures law.traced (harea _ (by simp [pendings])) (by simp [attemptArea])
      (Ne.symm hsps)).and (install_traced keeps (harea _ (by simp [pendings])) (by simp [attemptArea]))).mono
      (fun _ _ h => h) ?_) ?_
    · rintro interruption state' ⟨-, hl', ha'⟩
      have hs := seen_of_agree ha' (by simp) (by simp)
      exact ⟨ht₁.next hl' (.inr (.inl (hs.trans hhalf))), (congrArg Prod.snd hs).trans hread⟩
    · rintro progress state₂ ⟨⟨-, ha', -, hs, -⟩, hl', -⟩
      refine Ensures.pure (ht₁.next hl' (.inr (.inr (Prod.ext ?_ ?_))))
      · exact (ha' _ (by simp [attemptArea]) (by simp [his, hips])).trans hi
      · exact Disk.held_eq_some.mp (hs.trans hsymbols)

theorem installs_observed_of_folder {progress : Progress} (hf : paths.image.fileName? = none)
    (hne : paths.image.sibling "pending" tag ≠ paths.image)
    (hseen : seen paths (disk state.1) = seen paths before) (ht : Orderly disk paths written before state) :
    Ensures (((pendings paths tag).zip [paths.image, paths.symbols]).foldlM (install fs.traced) progress) state
      (fun _ _ => False)
      (fun _ state' => Orderly disk paths written before state' ∧
        (disk state'.1).read paths.symbols = before.read paths.symbols) := by
  have hp : paths.image.sibling "pending" tag ∈ attemptArea paths tag :=
    mem_attemptArea (by simp [temporaries, pendings])
  simp only [pendings, List.zip_cons_cons, List.zip_nil_right, List.foldlM_cons, List.foldlM_nil]
  refine Ensures.bind (((install_ensures law.traced hp (by simp [attemptArea]) hne).and
    (install_traced keeps hp (by simp [attemptArea]))).mono (fun _ _ h => h) ?_) ?_
  · rintro interruption state' ⟨-, hl, ha⟩
    have hs := (seen_of_agree ha (by simp) (by simp)).trans hseen
    exact ⟨ht.next hl (.inl hs), congrArg Prod.snd hs⟩
  · rintro progress' state₁ ⟨⟨-, -, hs, hheld, -⟩, -⟩
    rw [law.traced.folder (by simp [attemptArea]) hf] at hheld
    simp [← hheld] at hs

/-- What is taken back is the image, so the symbols stay what they were. -/
theorem rollBack_observed {extensions : Extensions} {interruption : Interruption}
    (himage : paths.image ∉ temporaries paths tag) (hsymbols : paths.symbols ∉ temporaries paths tag)
    (hapart : interruption.progress.installed ≠ [] → (attemptArea paths tag).Nodup ∧
      (paths.image.fileName?.isSome → paths.symbols.fileName?.isSome →
        paths.symbols.same paths.image = false))
    (h : Restorable paths written tag before.held interruption.progress (disk state.1).held)
    (hread : (disk state.1).read paths.symbols = before.read paths.symbols)
    (ht : Orderly disk paths written before state) :
    Orderly disk paths written before
      (rollBack fs.traced extensions paths.image interruption state).2 := by
  rw [rollBack_eq_cleanUp, state_bind_apply]
  refine (calm_cleanUp himage hsymbols keeps h).throughout ?_
  by_cases hi : interruption.progress.installed = []
  · rw [hi]
    exact ht
  obtain ⟨hnd, hsame⟩ := hapart hi
  have hone : interruption.progress.installed = [paths.image] := by
    rcases h.image with ⟨hi', -⟩ | ⟨hi', -⟩
    · exact absurd hi' hi
    · exact hi'
  rcases htake : takeBack fs.traced interruption.progress.backups paths.image state with
    ⟨⟨answer, left⟩, state₁⟩
  have hrun : (interruption.progress.installed.reverse.mapM
      (takeBack fs.traced interruption.progress.backups)) state = ([(answer, left)], state₁) := by
    rw [hone, List.reverse_singleton, List.mapM_cons, state_bind_apply, htake]
    rfl
  obtain ⟨-, hyes, hno⟩ :=
    takeBack_image law.traced hnd (apart_of_held (s := state) law.traced hsame) h hone htake
  have hcopies : ∀ path ∈ interruption.progress.backups.map (·.1), path ∈ temporaries paths tag :=
    fun path hm => h.backups_mem hm
  obtain ⟨hl, hreads⟩ := takeBack_traced keeps
    (fun backup hm => mem_attemptArea (hcopies _ (List.mem_map_of_mem hm))) (by simp [attemptArea]) htake
  have hkept : (disk state₁.1).read paths.symbols = before.read paths.symbols := by
    rw [hreads _ (by simp [attemptArea]) fun hm => ?_, hread]
    rcases List.mem_cons.mp hm with hm | hm
    · simp [attemptArea, hm] at hnd
    · exact hsymbols (hcopies _ hm)
  rw [hrun]
  refine ht.next hl ?_
  cases answer with
  | true => exact .inl (Prod.ext (hyes rfl).2.1 hkept)
  | false => exact .inr (.inl (Prod.ext (hno rfl).1 hkept))

/-- Up to an interruption the pair is seen in one of these ways, and the symbols are the old ones. -/
theorem replace_observed (hfresh : ∀ path ∈ temporaries paths tag, (disk state.1).held path = none)
    (himage : paths.image ∉ temporaries paths tag) (hsymbols : paths.symbols ∉ temporaries paths tag)
    (hapart : (attemptArea paths tag).Nodup ∧
        (paths.image.fileName?.isSome → paths.symbols.fileName?.isSome →
          paths.symbols.same paths.image = false) ∨
      paths.image = paths.symbols ∧ paths.image.fileName? = none)
    (ht : Orderly disk paths written (disk state.1) state) :
    Ensures (replace fs.traced paths written tag) state
      (fun progress state' => (∀ backup ∈ progress.backups, backup.1 ∈ temporaries paths tag) ∧
        Orderly disk paths written (disk state.1) state')
      (fun interruption state' => Orderly disk paths written (disk state.1) state' ∧
        (disk state'.1).read paths.symbols = (disk state.1).read paths.symbols ∧
        Restorable paths written tag (disk state.1).held interruption.progress (disk state'.1).held ∧
        (interruption.progress.installed ≠ [] → (attemptArea paths tag).Nodup ∧
          (paths.image.fileName?.isSome → paths.symbols.fileName?.isSome →
            paths.symbols.same paths.image = false))) := by
  have hcalm : Calm (fun s => seen paths (disk s)) (prepare fs.traced paths written tag).run :=
    calm_prepare himage hsymbols keeps
  have hprepared := (prepare_ensures law.traced hfresh himage hsymbols).and (hcalm.ensures ht)
  rw [replace_eq]
  refine (hprepared.mono (fun _ _ h => h) fun interruption state' h => ?_).bind ?_
  · exact ⟨h.2.2, congrArg Prod.snd h.2.1, h.1.1, fun hi => absurd h.1.2 hi⟩
  rintro progress state' ⟨⟨rfl, hr, hp⟩, hseen, ht'⟩
  rcases hapart with ⟨hnd, hsame⟩ | ⟨-, hfolder⟩
  · have htemp : (temporaries paths tag).Nodup := (List.nodup_cons.mp (List.nodup_cons.mp hnd).2).2
    refine ((installs_ensures law.traced hnd (hp htemp)).and
      (installs_observed law keeps hnd (hp htemp) hseen ht')).mono ?_ ?_
    · rintro progress last ⟨⟨hb, -⟩, hlast⟩
      refine ⟨fun backup hm => ?_, hlast⟩
      rw [hb] at hm
      exact List.mem_append_right _ (List.mem_map_of_mem ((madeBackups_sublist _).subset hm))
    · rintro interruption last ⟨hr', hlast, hread⟩
      exact ⟨hlast, hread, hr', fun _ => ⟨hnd, hsame⟩⟩
  · have hne : paths.image.sibling "pending" tag ≠ paths.image := fun hm =>
      himage (by rw [← hm]; simp [temporaries, pendings])
    refine ((installs_ensures_of_folder law.traced hfolder hne rfl hr).and
      (installs_observed_of_folder law keeps hfolder hne hseen ht')).mono (fun _ _ h => h.1.elim) ?_
    rintro interruption last ⟨⟨hr', hi⟩, hlast, hread⟩
    exact ⟨hlast, hread, hr', fun hi' => absurd hi hi'⟩

/-- An exchange never shows anything but the old pair, the new image over the old symbols, or the new pair. -/
theorem exchange_orderly {s : σ} {extensions : Extensions}
    (hfresh : ∀ path ∈ temporaries paths tag, (disk s).held path = none)
    (himage : paths.image ∉ temporaries paths tag) (hsymbols : paths.symbols ∉ temporaries paths tag)
    (hapart : (attemptArea paths tag).Nodup ∧
        (paths.image.fileName?.isSome → paths.symbols.fileName?.isSome →
          paths.symbols.same paths.image = false) ∨
      paths.image = paths.symbols ∧ paths.image.fileName? = none) :
    Orderly disk paths written (disk s)
      (exchange fs.traced extensions paths written tag (s, [s])).2 := by
  have hstart : Orderly disk paths written (disk s) (s, [s]) := by
    refine ⟨.inl rfl, fun t hm => ?_⟩
    rw [List.mem_singleton.mp hm]
    exact .inl rfl
  have hrun : Ensures (replace fs.traced paths written tag) (s, [s]) _ _ :=
    replace_observed law keeps hfresh himage hsymbols hapart hstart
  rw [exchange_eq]
  rw [Ensures] at hrun
  rcases hrep : replace fs.traced paths written tag (s, [s]) with ⟨interruption | progress, state⟩ <;>
    simp only [hrep] at hrun ⊢
  · obtain ⟨ht, hread, hr, hinstalled⟩ := hrun
    exact rollBack_observed law keeps himage hsymbols hinstalled hr hread ht
  · exact (calm_removeBackups himage hsymbols keeps hrun.1).throughout hrun.2

end Run

section Verify

variable {now : Disk} {image : Bytes} {symbols : Except FileFault Bytes}

/-- How an image stands to what its symbols read as. -/
def judge (image : Bytes) : Except FileFault Bytes → Result Status
  | .error .notFound => .ok .missingSymbols
  | .error fault => .error (.file fault)
  | .ok symbols => do
    let file ← Image.SymbolFile.parse symbols
    return if file.digest = Sha1.digest image then .consistent else .digestMismatch

theorem verify_eq (disk : Disk) (paths : PublishedPaths) :
    verify disk paths =
      match disk.mapped paths.image with
      | .error (.file .notFound) => .ok .missingImage
      | .error error => .error error
      | .ok image => judge image (disk.read paths.symbols) := by
  unfold verify
  rcases disk.mapped paths.image with error | image
  · rfl
  · rcases disk.read paths.symbols with fault | symbols
    · cases fault <;> rfl
    · rfl

theorem mapped_eq_ok {path : Path} : now.mapped path = .ok image ↔ now.held path = some image := by
  rw [Disk.held_eq_some, Disk.mapped, Disk.read]
  rcases now.find path with fault | - | contents <;> simp

theorem verify_of_held (h : now.held paths.image = some image) :
    verify now paths = judge image (now.read paths.symbols) := by
  rw [verify_eq, mapped_eq_ok.mpr h]

/-- Only an image can be judged by its symbols. -/
theorem verify_eq_ok {status : Status} (h : verify now paths = .ok status) (hne : status ≠ .missingImage) :
    ∃ image, now.held paths.image = some image ∧ judge image (now.read paths.symbols) = .ok status := by
  rw [verify_eq] at h
  rcases hm : now.mapped paths.image with error | image
  · rw [hm] at h
    split at h <;> simp_all
  · rw [hm] at h
    exact ⟨image, mapped_eq_ok.mp hm, h⟩

theorem judge_eq_missingSymbols : judge image symbols = .ok .missingSymbols ↔ symbols = .error .notFound := by
  rcases symbols with fault | symbols
  · cases fault <;> simp [judge]
  · simp only [judge, bind_eq_ok, reduceCtorEq, iff_false]
    rintro ⟨file, -, h⟩
    split_ifs at h <;> cases h

theorem judge_eq_consistent : judge image symbols = .ok .consistent ↔
    ∃ bytes file, symbols = .ok bytes ∧ Image.SymbolFile.parse bytes = .ok file ∧
      file.digest = Sha1.digest image := by
  rcases symbols with fault | symbols
  · cases fault <;> simp [judge]
  · simp only [judge, bind_eq_ok]
    constructor
    · rintro ⟨file, hp, h⟩
      split_ifs at h with hd
      · exact ⟨symbols, file, rfl, hp, hd⟩
      · cases h
    · rintro ⟨bytes, file, hb, hp, hd⟩
      obtain rfl := Except.ok.inj hb
      refine ⟨file, hp, ?_⟩
      rw [if_pos hd]
      rfl

/-- Symbols that were written for another image give themselves away. -/
theorem judge_of_ne {bytes : Bytes} {file : Image.SymbolFile} (h : Image.SymbolFile.parse bytes = .ok file)
    (hne : file.digest ≠ Sha1.digest image) : judge image (.ok bytes) = .ok .digestMismatch := by
  rw [judge, bind_eq_ok]
  refine ⟨file, h, ?_⟩
  rw [if_neg hne]
  rfl

end Verify

/-- What a publication may replace: a pair that fits together, an image without symbols, or nothing. -/
def Replaceable (disk : Disk) (paths : PublishedPaths) : Prop :=
  verify disk paths = .ok .consistent ∨ verify disk paths = .ok .missingSymbols ∨
    verify disk paths = .ok .missingImage ∧ disk.read paths.symbols = .error .notFound

/-- The symbols of what is replaced are readable and belong together with an image, or they are missing. -/
theorem Replaceable.symbols {disk : Disk} (h : Replaceable disk paths) :
    disk.read paths.symbols = .error .notFound ∨
      ∃ bytes file, disk.read paths.symbols = .ok bytes ∧ Image.SymbolFile.parse bytes = .ok file := by
  rcases h with h | h | ⟨-, h⟩
  · obtain ⟨image, -, hj⟩ := verify_eq_ok h (by simp)
    obtain ⟨bytes, file, hr, hp, -⟩ := judge_eq_consistent.mp hj
    exact .inr ⟨bytes, file, hr, hp⟩
  · obtain ⟨image, -, hj⟩ := verify_eq_ok h (by simp)
    exact .inl (judge_eq_missingSymbols.mp hj)
  · exact .inl h

/-- The symbols at a destination were not written for this image. -/
def Outdated (disk : Disk) (paths : PublishedPaths) (image : Bytes) : Prop :=
  ∀ bytes file, disk.read paths.symbols = .ok bytes → Image.SymbolFile.parse bytes = .ok file →
    file.digest ≠ Sha1.digest image

/-- Only the old pair and the new one are consistent. -/
theorem Foreseen.of_consistent {before now : Disk}
    (h : Foreseen written (seen paths before) (seen paths now))
    (hout : Outdated before paths written.image) (hv : verify now paths = .ok .consistent) :
    (now.held paths.image = before.held paths.image ∧ now.held paths.symbols = before.held paths.symbols) ∨
      (now.held paths.image = some written.image ∧ now.held paths.symbols = some written.symbols) := by
  simp only [Foreseen, seen, Prod.mk.injEq] at h
  rcases h with ⟨hi, hs⟩ | ⟨hi, hs⟩ | ⟨hi, hs⟩
  · exact .inl ⟨hi, congrArg Except.toOption hs⟩
  · rw [verify_of_held hi, judge_eq_consistent, hs] at hv
    obtain ⟨bytes, file, hr, hp, hd⟩ := hv
    exact absurd hd (hout bytes file hr hp)
  · exact .inr ⟨hi, Disk.held_eq_some.mpr hs⟩

/-- The new image over the old symbols is never taken for a pair. -/
theorem Foreseen.of_inconsistent {before now : Disk}
    (h : Foreseen written (seen paths before) (seen paths now))
    (hbefore : Replaceable before paths) (hout : Outdated before paths written.image)
    (hi : now.held paths.image = some written.image)
    (hs : now.held paths.symbols = before.held paths.symbols) :
    verify now paths = .ok .digestMismatch ∨ verify now paths = .ok .missingSymbols := by
  have hread : now.read paths.symbols = before.read paths.symbols := by
    simp only [Foreseen, seen, Prod.mk.injEq] at h
    rcases h with ⟨-, hr⟩ | ⟨-, hr⟩ | ⟨-, hr⟩
    · exact hr
    · exact hr
    · have hold := Disk.held_eq_some.mp (hs ▸ Disk.held_eq_some.mpr hr)
      rw [hr, hold]
  rw [verify_of_held hi, hread]
  rcases hbefore.symbols with hr | ⟨bytes, old, hr, hp⟩
  · exact .inr (judge_eq_missingSymbols.mpr hr)
  · rw [hr]
    exact .inl (judge_of_ne hp (hout bytes old hr hp))

/-- However the operations fail, at no time while a pair is being published do files that do not belong
together pass for a pair, and the end of publishing tells how the pair stands. -/
theorem publish_observed {module : Module} {extensions : Extensions} {destination : Path}
    {name : String} {s s' : σ} {result : Result PublishedPaths}
    (hwrite : Image.write module = .ok written)
    (hname : destination.names.getLast? = some name) (hfile : Path.IsFileName name)
    (hdiffer : extensions.image ≠ extensions.symbols) (htag : '/' ∉ tag.toList)
    (law : fs.Lawful (fun s => (disk s).held) (attemptArea (extensions.paths destination) tag))
    (keeps : fs.KeepsReads disk (attemptArea (extensions.paths destination) tag))
    (hfresh : ∀ path ∈ temporaries (extensions.paths destination) tag, (disk s).held path = none ∧
      path ≠ (extensions.paths destination).image ∧ path ≠ (extensions.paths destination).symbols)
    (hbefore : Replaceable (disk s) (extensions.paths destination))
    (hout : Outdated (disk s) (extensions.paths destination) written.image)
    (hrun : publish fs extensions destination written tag s = (result, s')) :
    (∀ t ∈ passed fs extensions destination written tag s,
      verify (disk t) (extensions.paths destination) = .ok .consistent →
        ((disk t).held (extensions.paths destination).image =
            (disk s).held (extensions.paths destination).image ∧
          (disk t).held (extensions.paths destination).symbols =
            (disk s).held (extensions.paths destination).symbols) ∨
        ((disk t).held (extensions.paths destination).image = some written.image ∧
          (disk t).held (extensions.paths destination).symbols = some written.symbols)) ∧
    (∀ published, result = .ok published →
      verify (disk s') (extensions.paths destination) = .ok .consistent) ∧
    ∀ image symbols message leftovers,
      result = .error (.publishInconsistent image symbols message leftovers) →
        verify (disk s') (extensions.paths destination) = .ok .digestMismatch ∨
          verify (disk s') (extensions.paths destination) = .ok .missingSymbols := by
  by_cases hslash : '/' ∈ extensions.image.toList ∨ '/' ∈ extensions.symbols.toList
  · -- the destination is not touched
    obtain ⟨extension, -, -, hc⟩ := Extensions.check_of_separator hslash
    have hpassed : passed fs extensions destination written tag s = [s] := by
      rw [passed, publish_of_error _ _ _ _ hc]
      rfl
    rw [publish_of_error _ _ _ _ hc] at hrun
    cases hrun
    refine ⟨fun t ht _ => .inl ?_, fun _ hok => ?_, fun _ _ _ _ herror => ?_⟩
    · rw [hpassed, List.mem_singleton] at ht
      rw [ht]
      exact ⟨rfl, rfl⟩
    · cases hok
    · cases herror
  rw [not_or] at hslash
  have hc := Extensions.check_eq_ok.mpr hslash
  obtain ⟨file, hparse, hdigest⟩ := Image.parse_written hwrite
  obtain ⟨parts, hn⟩ := List.getLast?_eq_some_iff.mp hname
  have hi : (extensions.paths destination).image ∉ temporaries (extensions.paths destination) tag :=
    fun hm => (hfresh _ hm).2.1 rfl
  have hs : (extensions.paths destination).symbols ∉ temporaries (extensions.paths destination) tag :=
    fun hm => (hfresh _ hm).2.2 rfl
  have hapart := paths_apart rfl hn hfile hdiffer hslash.1 hslash.2 htag hi hs
  have hnone : ∀ path ∈ temporaries (extensions.paths destination) tag, (disk s).held path = none :=
    fun path hm => (hfresh path hm).1
  have horderly : Orderly disk (extensions.paths destination) written (disk s)
      (publish fs.traced extensions destination written tag (s, [s])).2 := by
    rw [publish_of_ok _ _ _ _ hc]
    exact exchange_orderly law keeps hnone hi hs hapart
  have houtcome : Outcome (extensions.paths destination) written tag (disk s).held (disk s').held result := by
    rw [publish_of_ok _ _ _ _ hc] at hrun
    exact exchange_outcome law hnone hi hs hapart hrun
  have hlast : Foreseen written (seen (extensions.paths destination) (disk s))
      (seen (extensions.paths destination) (disk s')) := by
    obtain ⟨new, hn, -⟩ := publish_follows fs extensions destination written tag s [s]
    have hend := horderly.1
    rw [hn, hrun] at hend
    exact hend
  refine ⟨fun t ht hv => ?_, ?_, ?_⟩
  · have hm := List.mem_reverse.mp ht
    exact (horderly.2 t hm).of_consistent hout hv
  · rintro published rfl
    obtain ⟨-, hnew, hsym, -⟩ := houtcome
    rw [verify_of_held hnew, judge_eq_consistent]
    exact ⟨_, _, Disk.held_eq_some.mp hsym, hparse, hdigest⟩
  · rintro image symbols message leftovers rfl
    obtain ⟨-, hnew, hold, -⟩ := houtcome
    exact hlast.of_inconsistent hbefore hout hnew hold

/-- The symbols of an image of one byte. -/
def oldSymbols : Image.SymbolFile := ⟨Sha1.digest [1], .replicate 16 0, [], []⟩

/-- A pair that fits together, where the second and the third renaming fail. -/
def pairedScript : Script where
  host := { disk := ⟨[(["Game.dll"], .file [1]), (["Game.pdb"], .file oldSymbols.encode)]⟩ }
  faults := [⟨.rename, 2, 2⟩]

theorem parse_oldSymbols : Image.SymbolFile.parse oldSymbols.encode = .ok oldSymbols :=
  Image.SymbolFile.parse_encode ⟨by decide, nofun, by decide, nofun, nofun⟩

theorem read_pairedScript : pairedScript.host.disk.read stuckPaths.symbols = .ok oldSymbols.encode := by
  have hp : stuckPaths.symbols.IsPlain := by decide +kernel
  have ht : stuckPaths.symbols.text = "Game.pdb" := by decide +kernel
  rw [Disk.read_place hp, ht]
  rfl

theorem replaceable_pairedScript : Replaceable pairedScript.host.disk stuckPaths := by
  have hp : stuckPaths.image.IsPlain := by decide +kernel
  have ht : stuckPaths.image.text = "Game.dll" := by decide +kernel
  have hi : pairedScript.host.disk.held stuckPaths.image = some [1] := by
    rw [Disk.held_plain hp, ht]
    rfl
  refine .inl ?_
  rw [verify_of_held hi, judge_eq_consistent]
  exact ⟨_, _, read_pairedScript, parse_oldSymbols, rfl⟩

theorem outdated_pairedScript (hwrite : Image.write Image.spannedSample = .ok written) :
    Outdated pairedScript.host.disk stuckPaths written.image := by
  have hdigest : (Image.write Image.spannedSample).toOption.map (fun pair => Sha1.digest pair.image) ≠
      some (Sha1.digest [1]) := by decide +kernel
  intro bytes file hr hp hd
  rw [read_pairedScript, Except.ok.injEq] at hr
  rw [← hr, parse_oldSymbols, Except.ok.injEq] at hp
  subst hp
  rw [hwrite] at hdigest
  exact hdigest (congrArg some hd.symm)

theorem publish_observed_paired : ∃ written, Image.write Image.spannedSample = .ok written ∧
    Replaceable pairedScript.host.disk stuckPaths ∧
    Outdated pairedScript.host.disk stuckPaths written.image ∧
    ∀ script ∈ passed Script.fileSystem ⟨"dll", "pdb"⟩ ⟨"Game"⟩ written "7-0" pairedScript,
      verify script.host.disk stuckPaths = .ok .consistent →
        (script.host.disk.held stuckPaths.image = pairedScript.host.disk.held stuckPaths.image ∧
          script.host.disk.held stuckPaths.symbols = pairedScript.host.disk.held stuckPaths.symbols) ∨
        (script.host.disk.held stuckPaths.image = some written.image ∧
          script.host.disk.held stuckPaths.symbols = some written.symbols) := by
  obtain ⟨written, hwrite⟩ := Image.write_spannedSample
  have hname : (Path.mk "Game").names.getLast? = some "Game" := by decide +kernel
  have hplain : ∀ path ∈ attemptArea stuckPaths "7-0", path.IsPlain := by decide +kernel
  have hfresh : ∀ path ∈ temporaries stuckPaths "7-0", pairedScript.host.disk.held path = none ∧
      path ≠ stuckPaths.image ∧ path ≠ stuckPaths.symbols := by decide +kernel
  exact ⟨written, hwrite, replaceable_pairedScript, outdated_pairedScript hwrite,
    (publish_observed hwrite hname (by decide) (by decide) (by decide)
      (Script.lawful hplain) (Script.keepsReads hplain) hfresh replaceable_pairedScript
      (outdated_pairedScript hwrite) rfl).1⟩

end HotPatch.Publish
