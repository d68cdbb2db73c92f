import HotPatch.Proofs.Ensures
import HotPatch.Proofs.Files.PublishedPaths

/-!
# Publishing on related file systems

Two file systems simulate one another on some paths if their operations on
these paths give the same answers and keep a relation between the two states.
Publishing works on the files of its attempt and no others, so it gives the same
answer on both and keeps the relation too. A relation of a state with itself
says what publishing preserves.
-/

namespace HotPatch

variable {σ τ α β ε : Type}

/-- From related states, both computations give the same answer, one of those expected, and lead to
related states. -/
def Related (R : σ → τ → Prop) (expected : α → Prop) (first : StateM σ α) (second : StateM τ α) : Prop :=
  ∀ s t, R s t → (first s).1 = (second t).1 ∧ expected (first s).1 ∧ R (first s).2 (second t).2

/-- What holds of the value of a computation that comes to its end, or of the error of one that fails. -/
def Except.Either (done : α → Prop) (cut : ε → Prop) : Except ε α → Prop
  | .ok value => done value
  | .error error => cut error

namespace Related

variable {R : σ → τ → Prop} {expected : α → Prop} {first : StateM σ α} {second : StateM τ α}

theorem pure {value : α} (h : expected value) :
    Related R expected (Pure.pure value : StateM σ α) (Pure.pure value) :=
  fun _ _ hr => ⟨rfl, h, hr⟩

theorem bind {last : β → Prop} {next : α → StateM σ β} {next' : α → StateM τ β}
    (h : Related R expected first second)
    (hn : ∀ value, expected value → Related R last (next value) (next' value)) :
    Related R last (first >>= next) (second >>= next') := by
  intro s t hr
  obtain ⟨hv, he, hr'⟩ := h s t hr
  rw [state_bind_apply, state_bind_apply, ← hv]
  exact hn _ he _ _ hr'

theorem mapM {items : List β} {step : β → StateM σ α} {step' : β → StateM τ α}
    (h : ∀ item ∈ items, Related R (fun _ => True) (step item) (step' item)) :
    Related R (fun _ => True) (items.mapM step) (items.mapM step') := by
  induction items with
  | nil => exact pure trivial
  | cons item items ih =>
    rw [List.mapM_cons, List.mapM_cons]
    apply (h item List.mem_cons_self).bind
    intro value _
    apply (ih fun other ho => h other (List.mem_cons_of_mem _ ho)).bind
    intro rest _
    exact pure trivial

theorem forM {items : List β} {step : β → StateM σ PUnit} {step' : β → StateM τ PUnit}
    (h : ∀ item ∈ items, Related R (fun _ => True) (step item) (step' item)) :
    Related R (fun _ => True) (items.forM step) (items.forM step') := by
  induction items with
  | nil => exact pure trivial
  | cons item items ih =>
    rw [List.forM_eq_forM, List.forM_eq_forM, List.forM_cons, List.forM_cons]
    apply (h item List.mem_cons_self).bind
    intro _ _
    exact ih fun other ho => h other (List.mem_cons_of_mem _ ho)

section Attempts

variable {done : α → Prop} {cut : ε → Prop} {attempt : ExceptT ε (StateM σ) α}
  {attempt' : ExceptT ε (StateM τ) α}

theorem attempt_bind {last : β → Prop} {next : α → ExceptT ε (StateM σ) β} {next' : α → ExceptT ε (StateM τ) β}
    (h : Related R (Except.Either done cut) attempt.run attempt'.run)
    (hn : ∀ value, done value → Related R (Except.Either last cut) (next value).run (next' value).run) :
    Related R (Except.Either last cut) (attempt >>= next).run (attempt' >>= next').run := by
  rw [ExceptT.run_bind, ExceptT.run_bind]
  apply h.bind
  intro result he
  rcases result with error | value
  · exact pure he
  · exact hn value he

theorem attempt_pure {value : α} (h : done value) :
    Related R (Except.Either done cut) (Pure.pure value : ExceptT ε (StateM σ) α).run
      (Pure.pure value : ExceptT ε (StateM τ) α).run := pure h

theorem lift (h : Related R (fun _ => True) first second) :
    Related R (Except.Either (fun _ => True) cut) (liftM first : ExceptT ε (StateM σ) α).run
      (liftM second : ExceptT ε (StateM τ) α).run :=
  h.bind fun _ _ => pure trivial

theorem foldlM {items : List β} {step : α → β → ExceptT ε (StateM σ) α}
    {step' : α → β → ExceptT ε (StateM τ) α} {start : α} (hs : done start)
    (h : ∀ value, done value → ∀ item ∈ items,
      Related R (Except.Either done cut) (step value item).run (step' value item).run) :
    Related R (Except.Either done cut) (items.foldlM step start).run (items.foldlM step' start).run := by
  induction items generalizing start with
  | nil => exact attempt_pure hs
  | cons item items ih =>
    rw [List.foldlM_cons, List.foldlM_cons]
    apply attempt_bind (h start hs item List.mem_cons_self)
    intro value hv
    exact ih hv fun value hv other ho => h value hv other (List.mem_cons_of_mem _ ho)

end Attempts
end Related

/-- The operations of both file systems on some paths give the same answers and keep a relation. -/
structure FileSystem.Simulates (fs : FileSystem σ) (fs' : FileSystem τ) (R : σ → τ → Prop)
    (area : Path → Prop) : Prop where
  write : ∀ {path} bytes, area path → Related R (fun _ => True) (fs.write path bytes) (fs'.write path bytes)
  copy : ∀ {source target}, area source → area target →
    Related R (fun _ => True) (fs.copy source target) (fs'.copy source target)
  rename : ∀ {source target}, area source → area target →
    Related R (fun _ => True) (fs.rename source target) (fs'.rename source target)
  remove : ∀ {path}, area path → Related R (fun _ => True) (fs.remove path) (fs'.remove path)
  isFile : ∀ {path}, area path → Related R (fun _ => True) (fs.isFile path) (fs'.isFile path)
  unload : ∀ path, Related R (fun _ => True) (fs.unload path) (fs'.unload path)

namespace Publish

/-- An attempt has dealt with no other paths. -/
structure Progress.Within (area : Path → Prop) (progress : Progress) : Prop where
  pending : ∀ path ∈ progress.pending, area path
  backups : ∀ backup ∈ progress.backups, area backup.1
  installed : ∀ path ∈ progress.installed, area path

variable {fs : FileSystem σ} {fs' : FileSystem τ} {R : σ → τ → Prop} {area : Path → Prop}

/-- An attempt keeps within its paths on both ways. -/
abbrev Kept (area : Path → Prop) : Except Interruption Progress → Prop :=
  Except.Either (Progress.Within area) fun interruption => interruption.progress.Within area

theorem carryOut_related {operation : StateM σ (Except FileFault Unit)}
    {operation' : StateM τ (Except FileFault Unit)} (h : Related R (fun _ => True) operation operation')
    {progress : Progress} (hp : progress.Within area) (step : String) :
    Related R (Except.Either (fun _ => True) fun interruption => interruption.progress.Within area)
      (carryOut operation progress step).run (carryOut operation' progress step).run := by
  apply Related.attempt_bind h.lift
  intro result _
  rcases result with fault | ⟨⟩
  · exact Related.pure hp
  · exact Related.pure trivial

section Steps

variable (h : fs.Simulates fs' R area) {progress : Progress} {tag : String}

include h

theorem writePending_related (hp : progress.Within area) {file : Path × Bytes}
    (hf : area (file.1.sibling "pending" tag)) :
    Related R (Kept area) (writePending fs tag progress file).run (writePending fs' tag progress file).run := by
  have hp' : Progress.Within area
      { progress with pending := progress.pending ++ [file.1.sibling "pending" tag] } := by
    refine ⟨fun path hm => ?_, hp.backups, hp.installed⟩
    rcases List.mem_append.mp hm with hm | hm
    · exact hp.pending path hm
    · exact List.mem_singleton.mp hm ▸ hf
  apply Related.attempt_bind (carryOut_related (h.write _ hf) hp' _)
  intro _ _
  exact Related.attempt_pure hp'

theorem backUp_related (hp : progress.Within area) {path : Path} (hpath : area path)
    (hb : area (path.sibling "backup" tag)) :
    Related R (Kept area) (backUp fs tag progress path).run (backUp fs' tag progress path).run := by
  have hp' : Progress.Within area
      { progress with backups := progress.backups ++ [(path.sibling "backup" tag, path)] } := by
    refine ⟨hp.pending, fun backup hm => ?_, hp.installed⟩
    rcases List.mem_append.mp hm with hm | hm
    · exact hp.backups backup hm
    · exact List.mem_singleton.mp hm ▸ hb
  apply Related.attempt_bind (h.isFile hpath).lift
  intro answer _
  rcases answer with - | -
  · exact Related.attempt_pure hp
  · apply Related.attempt_bind (carryOut_related (h.copy hpath hb) hp' _)
    intro _ _
    exact Related.attempt_pure hp'

theorem install_related (hp : progress.Within area) {file : Path × Path} (hpending : area file.1)
    (htarget : area file.2) :
    Related R (Kept area) (install fs progress file).run (install fs' progress file).run := by
  have hp' : Progress.Within area { progress with installed := progress.installed ++ [file.2] } := by
    refine ⟨hp.pending, hp.backups, fun path hm => ?_⟩
    rcases List.mem_append.mp hm with hm | hm
    · exact hp.installed path hm
    · exact List.mem_singleton.mp hm ▸ htarget
  apply Related.attempt_bind (carryOut_related (h.rename hpending htarget) hp _)
  intro _ _
  exact Related.attempt_pure hp'

theorem takeBack_related {backups : List (Path × Path)} (hb : ∀ backup ∈ backups, area backup.1) {target : Path}
    (ht : area target) : Related R (fun _ => True) (takeBack fs backups target) (takeBack fs' backups target) := by
  unfold takeBack
  rcases hf : backups.find? fun backup => backup.2.same target with - | ⟨backup, original⟩ <;> simp only [hf]
  · apply (h.remove ht).bind
    intro _ _
    exact .pure trivial
  · apply (h.rename (hb _ (List.mem_of_find?_eq_some hf)) ht).bind
    intro _ _
    exact .pure trivial

theorem discard_related {path : Path} (hp : area path) :
    Related R (fun _ => True) (discard fs path) (discard fs' path) := by
  apply (h.isFile hp).bind
  intro answer _
  rcases answer with - | -
  · exact .pure trivial
  · apply (h.remove hp).bind
    intro _ _
    exact .pure trivial

theorem discardBackup_related (installed : List Path) {backup : Path × Path} (hb : area backup.1) :
    Related R (fun _ => True) (discardBackup fs installed backup) (discardBackup fs' installed backup) := by
  unfold discardBackup
  split_ifs
  · exact .pure trivial
  · exact discard_related h hb

theorem rollBack_related (extensions : Extensions) (image : Path) {interruption : Interruption}
    (hp : interruption.progress.Within area) :
    Related R (fun _ => True) (rollBack fs extensions image interruption)
      (rollBack fs' extensions image interruption) := by
  apply (Related.mapM fun target hm => takeBack_related h hp.backups
    (hp.installed target (List.mem_reverse.mp hm))).bind
  intro restored _
  apply (Related.mapM fun backup hm => discardBackup_related h _ (hp.backups backup hm)).bind
  intro backups _
  apply (Related.mapM fun path hm => discard_related h (hp.pending path hm)).bind
  intro pending _
  dsimp only
  split_ifs
  · exact .pure trivial
  · exact .pure trivial

theorem replace_related {paths : PublishedPaths} (ha : ∀ path ∈ attemptArea paths tag, area path)
    (written : Image.Written) :
    Related R (Kept area) (replace fs paths written tag).run (replace fs' paths written tag).run := by
  have himage : area paths.image := ha _ (by simp [attemptArea])
  have hsymbols : area paths.symbols := ha _ (by simp [attemptArea])
  have hstart : Progress.Within area {} := ⟨nofun, nofun, nofun⟩
  apply Related.attempt_bind (Related.foldlM hstart fun progress hp file hm => writePending_related h hp ?_)
  · intro progress hp
    apply Related.attempt_bind (Related.foldlM hp fun progress hp path hm => backUp_related h hp ?_ ?_)
    · intro progress hp
      apply Related.attempt_bind (h.unload paths.image).lift
      intro _ _
      apply Related.foldlM hp
      intro progress' hp' file hm
      have htarget := List.of_mem_zip hm
      apply install_related h hp' (hp.pending _ htarget.1)
      rcases List.mem_pair.mp htarget.2 with he | he <;> rw [he]
      · exact himage
      · exact hsymbols
    · rcases List.mem_pair.mp hm with rfl | rfl
      · exact himage
      · exact hsymbols
    · rcases List.mem_pair.mp hm with rfl | rfl <;> exact ha _ (by simp [attemptArea, temporaries, backups])
  · rcases List.mem_pair.mp hm with rfl | rfl <;> exact ha _ (by simp [attemptArea, temporaries, pendings])

theorem exchange_related (extensions : Extensions) {paths : PublishedPaths}
    (ha : ∀ path ∈ attemptArea paths tag, area path) (written : Image.Written) :
    Related R (fun _ => True) (exchange fs extensions paths written tag)
      (exchange fs' extensions paths written tag) := by
  apply (replace_related h ha written).bind
  intro result hk
  rcases result with interruption | progress
  · apply (rollBack_related h extensions _ hk).bind
    intro _ _
    exact .pure trivial
  · apply Related.bind (Related.forM fun backup hm => ?_)
    · intro _ _
      exact .pure trivial
    · apply (h.remove (hk.backups backup hm)).bind
      intro _ _
      exact .pure trivial

/-- Publishing gives the same answer on both file systems and keeps what relates their states. -/
theorem publish_related {extensions : Extensions} {destination : Path}
    (ha : ∀ path ∈ attemptArea (extensions.paths destination) tag, area path) (written : Image.Written) :
    Related R (fun _ => True) (publish fs extensions destination written tag)
      (publish fs' extensions destination written tag) := by
  unfold publish
  rcases extensions.check with error | ⟨⟩
  · exact .pure trivial
  · exact exchange_related h extensions ha written

end Steps
end Publish
end HotPatch
