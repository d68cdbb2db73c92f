import HotPatch.Proofs.Ensures
import HotPatch.Proofs.Files.LawfulFileSystem
import HotPatch.Proofs.Files.PublishedPaths

/-!
# Rolling an attempt back

`Restorable` is what holds wherever an attempt may be interrupted. From such a
state the roll-back brings the destination back, or leaves the new image over
the old symbols, and it lists what it could not remove.
-/

namespace HotPatch.Publish

open Holdings (AgreeExcept)

variable {σ : Type} {fs : FileSystem σ} {held : σ → Holdings} {area : List Path}

/-- No file of the attempt is left that the list does not name; and the list names nothing else,
unless image and symbols have one path. -/
def ListsRemains (paths : PublishedPaths) (tag : String) (after : Holdings) (leftovers : List Path) :
    Prop :=
  (∀ path ∈ temporaries paths tag, (after path).isSome → path ∈ leftovers) ∧
    (paths.image ≠ paths.symbols →
      ∀ path ∈ leftovers, path ∈ temporaries paths tag ∧ (after path).isSome)

/-- The three ways in which publishing may end. -/
def Outcome (paths : PublishedPaths) (written : Image.Written) (tag : String) (before after : Holdings) :
    Result PublishedPaths → Prop
  | .ok published => published = paths ∧ after paths.image = some written.image ∧
      after paths.symbols = some written.symbols ∧ ∀ path ∈ pendings paths tag, after path = none
  | .error (.publish destination _ leftovers) => destination = paths.image ∧
      after paths.image = before paths.image ∧ after paths.symbols = before paths.symbols ∧
      ListsRemains paths tag after leftovers
  | .error (.publishInconsistent image _ _ leftovers) => image = paths.image ∧
      after paths.image = some written.image ∧ after paths.symbols = before paths.symbols ∧
      ListsRemains paths tag after leftovers
  | .error _ => False

/-- Removes files one after another and answers those that stay. -/
def discardAll (fs : FileSystem σ) (files : List Path) : StateM σ (List Path) :=
  List.flatten <$> files.mapM (discard fs)

theorem discardAll_cons (fs : FileSystem σ) (file : Path) (files : List Path) (s : σ) :
    discardAll fs (file :: files) s =
      (((discard fs file s).1 ++ (discardAll fs files (discard fs file s).2).1),
        (discardAll fs files (discard fs file s).2).2) := by
  simp only [discardAll, List.mapM_cons]
  rfl

/-- The copy of a file, if the file is there, with what it is a copy of. -/
def copied (before : Holdings) (tag : String) (path : Path) : List (Path × Path) :=
  [(path.sibling "backup" tag, path)].filter fun backup => (before backup.2).isSome

section Steps

variable {paths : PublishedPaths} {tag : String} {s : σ} {before after : Holdings} {path : Path}

theorem copied_of_isSome (h : (before path).isSome) : copied before tag path = [(path.sibling "backup" tag, path)] :=
  List.filter_cons_of_pos h

theorem copied_of_not_isSome (h : ¬(before path).isSome) : copied before tag path = [] :=
  List.filter_cons_of_neg h

theorem mem_copied {backup : Path × Path} : backup ∈ copied before tag path ↔
    backup = (path.sibling "backup" tag, path) ∧ (before path).isSome := by
  rw [copied, List.mem_filter, List.mem_singleton]
  constructor
  · rintro ⟨rfl, hs⟩
    exact ⟨rfl, hs⟩
  · rintro ⟨rfl, hs⟩
    exact ⟨rfl, hs⟩

theorem copied_sublist : (copied before tag path).Sublist [(path.sibling "backup" tag, path)] := List.filter_sublist

theorem copied_congr (h : after path = before path) : copied after tag path = copied before tag path := by
  by_cases hs : (before path).isSome
  · rw [copied_of_isSome hs, copied_of_isSome (h ▸ hs)]
  · rw [copied_of_not_isSome hs, copied_of_not_isSome (h ▸ hs)]

variable (law : fs.Lawful held area)

theorem carryOut_ensures {operation : StateM σ (Except FileFault Unit)} {progress : Progress} {step : String}
    {done cut : σ → Prop} (hd : ∀ s', operation s = (.ok (), s') → done s')
    (hc : ∀ fault s', operation s = (.error fault, s') → cut s') :
    Ensures (carryOut operation progress step) s (fun _ s' => done s')
      (fun interruption s' => interruption.progress = progress ∧ cut s') := by
  rw [Ensures, carryOut, bind_apply, lift_apply]
  rcases hr : operation s with ⟨fault | ⟨⟩, s'⟩
  · exact ⟨rfl, hc fault s' hr⟩
  · exact hd s' hr

include law

/-- A pending file holds its contents once it is written, and anything if that fails. -/
theorem writePending_ensures {progress : Progress} {file : Path × Bytes}
    (hp : file.1.sibling "pending" tag ∈ area) :
    Ensures (writePending fs tag progress file) s
      (fun next s' => next = { progress with pending := progress.pending ++ [file.1.sibling "pending" tag] } ∧
        AgreeExcept area [file.1.sibling "pending" tag] (held s) (held s') ∧
        held s' (file.1.sibling "pending" tag) = some file.2)
      (fun interruption s' =>
        interruption.progress =
          { progress with pending := progress.pending ++ [file.1.sibling "pending" tag] } ∧
        AgreeExcept area [file.1.sibling "pending" tag] (held s) (held s')) := by
  unfold writePending
  refine (?_ : Ensures _ s (fun _ s' => AgreeExcept area [file.1.sibling "pending" tag] (held s) (held s') ∧
    held s' (file.1.sibling "pending" tag) = some file.2) _).bind ?_
  · apply carryOut_ensures
    · intro s' h
      have hw := law.write hp h
      exact ⟨hw.1, hw.2 rfl⟩
    · intro fault s' h
      exact (law.write hp h).1
  · intro _ s' h
    exact Ensures.pure ⟨rfl, h⟩

/-- A file that is there is copied. -/
theorem backUp_ensures {progress : Progress} {path : Path} (hp : path ∈ area)
    (hb : path.sibling "backup" tag ∈ area) (hne : path ≠ path.sibling "backup" tag) :
    Ensures (backUp fs tag progress path) s
      (fun next s' =>
        next = { progress with backups := progress.backups ++ copied (held s) tag path } ∧
        AgreeExcept area ((copied (held s) tag path).map (·.1)) (held s) (held s') ∧
        ((held s path).isSome → held s' (path.sibling "backup" tag) = held s path))
      (fun interruption s' =>
        interruption.progress = { progress with backups := progress.backups ++ copied (held s) tag path } ∧
        AgreeExcept area ((copied (held s) tag path).map (·.1)) (held s) (held s')) := by
  unfold backUp
  refine (?_ : Ensures _ s (fun answer s' => answer = (held s path).isSome ∧
    AgreeExcept area [] (held s) (held s')) _).bind ?_
  · rw [Ensures, lift_apply]
    exact law.isFile hp rfl
  · rintro answer s₁ ⟨rfl, h₁⟩
    have hsource : held s₁ path = held s path := h₁ path hp List.not_mem_nil
    split_ifs with hs
    · rw [copied_of_isSome hs]
      refine (?_ : Ensures _ s₁ (fun _ s' =>
        AgreeExcept area [path.sibling "backup" tag] (held s) (held s') ∧
          held s' (path.sibling "backup" tag) = held s path) _).bind ?_
      · apply carryOut_ensures
        · intro s' h
          obtain ⟨ha, hd⟩ := law.copy hp hb hne h
          exact ⟨(h₁.mono (List.nil_subset _)).trans ha, (hd rfl).2.trans hsource⟩
        · intro fault s' h
          exact (h₁.mono (List.nil_subset _)).trans (law.copy hp hb hne h).1
      · rintro - s' ⟨ha, hc⟩
        exact Ensures.pure ⟨rfl, ha, fun _ => hc⟩
    · rw [copied_of_not_isSome hs, List.append_nil]
      exact Ensures.pure ⟨rfl, h₁, fun h => absurd h hs⟩

/-- Installing moves a pending file to its place, or changes nothing. -/
theorem install_ensures {progress : Progress} {pending target : Path} (hp : pending ∈ area)
    (ht : target ∈ area) (hne : pending ≠ target) :
    Ensures (install fs progress (pending, target)) s
      (fun next s' => next = { progress with installed := progress.installed ++ [target] } ∧
        AgreeExcept area [pending, target] (held s) (held s') ∧ (held s pending).isSome ∧
        held s' target = held s pending ∧ held s' pending = none)
      (fun interruption s' => interruption.progress = progress ∧
        AgreeExcept area [] (held s) (held s')) := by
  unfold install
  refine (?_ : Ensures _ s (fun _ s' =>
    AgreeExcept area [pending, target] (held s) (held s') ∧ (held s pending).isSome ∧
      held s' target = held s pending ∧ held s' pending = none) _).bind ?_
  · apply carryOut_ensures
    · intro s' h
      exact (law.rename hp ht hne h).1 rfl
    · intro fault s' h
      exact (law.rename hp ht hne h).2 (by simp)
  · intro _ s' h
    exact Ensures.pure ⟨rfl, h⟩

/-- A removed file is gone, and one that stays is reported. -/
theorem discard_spec {path : Path} {left : List Path} {s' : σ} (hp : path ∈ area)
    (h : discard fs path s = (left, s')) :
    AgreeExcept area [path] (held s) (held s') ∧
      (left = [] ∧ held s' path = none ∨ left = [path] ∧ (held s' path).isSome) := by
  unfold discard at h
  rw [state_bind_apply] at h
  rcases hq : fs.isFile path s with ⟨answer, s₁⟩
  obtain ⟨ha, h₁⟩ := law.isFile hp hq
  have hsame : held s₁ path = held s path := h₁ path hp (by simp)
  simp only [hq] at h
  split_ifs at h with hs
  · rw [state_bind_apply] at h
    rcases hr : fs.remove path s₁ with ⟨fault | ⟨⟩, s₂⟩ <;> simp only [hr] at h <;> cases h
    · have h₂ := (law.remove hp hr).2 (by simp)
      refine ⟨(h₁.trans h₂).mono (by simp), .inr ⟨rfl, ?_⟩⟩
      rwa [h₂ path hp (by simp), hsame, ← ha]
    · obtain ⟨h₂, -, hn⟩ := (law.remove hp hr).1 rfl
      exact ⟨(h₁.mono (by simp)).trans h₂, .inl ⟨rfl, hn⟩⟩
  · cases h
    refine ⟨h₁.mono (by simp), .inl ⟨rfl, ?_⟩⟩
    rw [hsame]
    simpa [ha] using hs

theorem discardAll_spec {files left : List Path} {s' : σ} (hf : ∀ path ∈ files, path ∈ area)
    (h : discardAll fs files s = (left, s')) :
    AgreeExcept area files (held s) (held s') ∧ (∀ path ∈ left, path ∈ files) ∧
      (∀ path ∈ files, (held s' path).isSome → path ∈ left) ∧
      (files.Nodup → ∀ path ∈ left, (held s' path).isSome) := by
  induction files generalizing s left with
  | nil =>
    cases h
    exact ⟨.refl, by simp, by simp, by simp⟩
  | cons file files ih =>
    rw [discardAll_cons] at h
    rcases hd : discard fs file s with ⟨first, s₁⟩
    rcases hr : discardAll fs files s₁ with ⟨rest, s₂⟩
    simp only [hd, hr] at h
    cases h
    obtain ⟨h₁, hfirst⟩ := discard_spec law (hf file (by simp)) hd
    obtain ⟨h₂, hin, hout, hstay⟩ := ih (fun path hp => hf path (by simp [hp])) hr
    refine ⟨(h₁.mono (by simp)).trans (h₂.mono (by simp)), ?_, ?_, ?_⟩
    · intro path hp
      rcases List.mem_append.mp hp with hp | hp
      · rcases hfirst with ⟨rfl, -⟩ | ⟨rfl, -⟩ <;> simp_all
      · simp [hin path hp]
    · intro path hp hs
      by_cases hm : path ∈ files
      · simp [hout path hm hs]
      · obtain rfl : path = file := by simpa [hm] using hp
        rw [h₂ path (hf path (by simp)) hm] at hs
        rcases hfirst with ⟨-, hn⟩ | ⟨rfl, -⟩
        · simp [hn] at hs
        · simp
    · intro hnd path hp
      obtain ⟨hnot, hnd⟩ := List.nodup_cons.mp hnd
      rcases List.mem_append.mp hp with hp | hp
      · rcases hfirst with ⟨rfl, -⟩ | ⟨rfl, hs⟩
        · simp at hp
        · obtain rfl : path = file := by simpa using hp
          rwa [h₂ path (hf path (by simp)) hnot]
      · exact hstay hnd path hp

end Steps

/-- The copies that a roll-back removes, those of files that were not installed. -/
def dueBackups (installed : List Path) (backups : List (Path × Path)) : List Path :=
  (backups.filter fun backup => !installed.any backup.2.same).map (·.1)

theorem discardBackups_eq (installed : List Path) (backups : List (Path × Path)) (s : σ) :
    (((backups.mapM (discardBackup fs installed)) s).1.flatten,
      ((backups.mapM (discardBackup fs installed)) s).2) =
      discardAll fs (dueBackups installed backups) s := by
  induction backups generalizing s with
  | nil => rfl
  | cons backup backups ih =>
    rw [List.mapM_cons]
    simp only [state_bind_apply]
    by_cases hs : installed.any backup.2.same
    · have hd : discardBackup fs installed backup = pure [] := by simp [discardBackup, hs]
      have hl : dueBackups installed (backup :: backups) = dueBackups installed backups := by
        simp [dueBackups, hs]
      rw [hd, hl, ← ih]
      rfl
    · have hd : discardBackup fs installed backup = discard fs backup.1 := by simp [discardBackup, hs]
      have hl : dueBackups installed (backup :: backups) =
          backup.1 :: dueBackups installed backups := by
        simp [dueBackups, hs]
      rw [hd, hl, discardAll_cons, ← ih]
      rfl

theorem rollBack_eq {extensions : Extensions} {image : Path} {interruption : Interruption}
    {answers : List (Bool × List Path)} {first second : List Path} {s s₁ s₂ s₃ : σ}
    (hr : (interruption.progress.installed.reverse.mapM
      (takeBack fs interruption.progress.backups)) s = (answers, s₁))
    (hb : discardAll fs (dueBackups interruption.progress.installed interruption.progress.backups) s₁ =
      (first, s₂))
    (hp : discardAll fs interruption.progress.pending s₂ = (second, s₃)) :
    rollBack fs extensions image interruption s =
      (if answers.all (·.1) then
        .publish image interruption.message ((answers.map (·.2)).flatten ++ (first ++ second))
      else .publishInconsistent image (image.withExtension extensions.symbols) interruption.message
        ((answers.map (·.2)).flatten ++ (first ++ second)), s₃) := by
  rw [← discardBackups_eq, Prod.mk.injEq] at hb
  obtain ⟨rfl, rfl⟩ := hb
  rw [← List.append_assoc]
  have hp₁ := congrArg Prod.fst hp
  have hp₂ := congrArg Prod.snd hp
  simp only [discardAll] at hp₁ hp₂
  simp only [rollBack, state_bind_apply, hr]
  split_ifs <;> rw [← hp₁, ← hp₂] <;> rfl

/-- The state of an interrupted attempt: the destination is as it was, or the image is installed and
its predecessor, if any, is still there as a copy. -/
structure Restorable (paths : PublishedPaths) (written : Image.Written) (tag : String)
    (before : Holdings) (progress : Progress) (now : Holdings) : Prop where
  pending : progress.pending.Sublist (pendings paths tag)
  backups : progress.backups.Sublist (backups paths tag)
  rest : ∀ path ∈ temporaries paths tag, path ∉ progress.pending →
    path ∉ progress.backups.map (·.1) → now path = none
  symbols : now paths.symbols = before paths.symbols
  image : progress.installed = [] ∧ now paths.image = before paths.image ∨
    progress.installed = [paths.image] ∧ now paths.image = some written.image ∧
      ((paths.image.sibling "backup" tag, paths.image) ∈ progress.backups →
        (before paths.image).isSome ∧ now (paths.image.sibling "backup" tag) = before paths.image) ∧
      ((paths.image.sibling "backup" tag, paths.image) ∉ progress.backups → before paths.image = none) ∧
      ((paths.symbols.sibling "backup" tag, paths.symbols) ∈ progress.backups →
        (before paths.symbols).isSome)

theorem sublist_pair {α : Type} {a b : α} {l : List α} (h : l.Sublist [a, b]) :
    l = [] ∨ l = [a] ∨ l = [b] ∨ l = [a, b] := by
  rcases List.sublist_cons_iff.mp h with h' | ⟨rest, rfl, h'⟩ <;>
    rcases List.sublist_singleton.mp h' with rfl | rfl <;> simp

theorem same_self (path : Path) : path.same path = true := by simp [Path.same]

section RollBack

variable {paths : PublishedPaths} {written : Image.Written} {tag : String} {before : Holdings} {s : σ}
  (law : fs.Lawful held (attemptArea paths tag))

theorem mem_attemptArea {path : Path} (h : path ∈ temporaries paths tag) :
    path ∈ attemptArea paths tag := by
  simp [attemptArea, h]

theorem Restorable.pending_mem {progress : Progress} {now : Holdings}
    (h : Restorable paths written tag before progress now) {path : Path} (hp : path ∈ progress.pending) :
    path ∈ temporaries paths tag :=
  List.mem_append_left _ (h.pending.subset hp)

theorem Restorable.backups_mem {progress : Progress} {now : Holdings}
    (h : Restorable paths written tag before progress now) {path : Path}
    (hp : path ∈ progress.backups.map (·.1)) : path ∈ temporaries paths tag :=
  List.mem_append_right _ ((h.backups.map _).subset hp)

theorem Restorable.congr {progress : Progress} {now after : Holdings}
    (h : Restorable paths written tag before progress now)
    (ha : AgreeExcept (attemptArea paths tag) [] now after) :
    Restorable paths written tag before progress after := by
  have he : ∀ path ∈ attemptArea paths tag, after path = now path := fun path hm => ha path hm (by simp)
  have hi := he paths.image (by simp [attemptArea])
  have hc := he (paths.image.sibling "backup" tag) (by simp [attemptArea, temporaries, Publish.backups])
  refine ⟨h.pending, h.backups, fun path hm hp hb => ?_, ?_, ?_⟩
  · rw [he path (mem_attemptArea hm)]
    exact h.rest path hm hp hb
  · rw [he paths.symbols (by simp [attemptArea]), h.symbols]
  · rw [hi, hc]
    exact h.image

theorem dueBackups_image {progress : Progress} {now : Holdings}
    (h : Restorable paths written tag before progress now) {path : Path}
    (hp : path ∈ dueBackups [paths.image] progress.backups) :
    path = paths.symbols.sibling "backup" tag := by
  obtain ⟨backup, hb, rfl⟩ := List.mem_map.mp hp
  obtain ⟨hb, hs⟩ := List.mem_filter.mp hb
  have hin := h.backups.subset hb
  simp only [backups, List.mem_cons, List.not_mem_nil, or_false] at hin
  rcases hin with rfl | rfl
  · simp [same_self] at hs
  · rfl

theorem mem_dueBackups_image {progress : Progress} {now : Holdings}
    (h : Restorable paths written tag before progress now)
    (hs : (paths.symbols.sibling "backup" tag, paths.symbols) ∈ progress.backups →
      paths.symbols.same paths.image = false)
    {path : Path} (hp : path ∈ progress.backups.map (·.1))
    (hne : path ≠ paths.image.sibling "backup" tag) : path ∈ dueBackups [paths.image] progress.backups := by
  obtain ⟨backup, hb, rfl⟩ := List.mem_map.mp hp
  have hin := h.backups.subset hb
  simp only [backups, List.mem_cons, List.not_mem_nil, or_false] at hin
  rcases hin with rfl | rfl
  · exact absurd rfl hne
  · exact List.mem_map.mpr ⟨_, List.mem_filter.mpr ⟨hb, by simp [hs hb]⟩, rfl⟩

theorem dueBackups_sublist (installed : List Path) (backups : List (Path × Path)) :
    (dueBackups installed backups).Sublist (backups.map (·.1)) :=
  List.filter_sublist.map _

include law

/-- Removing the copies and then the pending files leaves what is reported, and nothing else. -/
theorem discard_both {copies pending first second : List Path} {s₁ s₂ : σ}
    (hc : ∀ path ∈ copies, path ∈ temporaries paths tag)
    (hp : ∀ path ∈ pending, path ∈ temporaries paths tag)
    (h₁ : discardAll fs copies s = (first, s₁)) (h₂ : discardAll fs pending s₁ = (second, s₂)) :
    AgreeExcept (attemptArea paths tag) (copies ++ pending) (held s) (held s₂) ∧
      (∀ path ∈ copies ++ pending, (held s₂ path).isSome → path ∈ first ++ second) ∧
      ((copies ++ pending).Nodup → ∀ path ∈ first ++ second,
        path ∈ temporaries paths tag ∧ (held s₂ path).isSome) := by
  obtain ⟨ha, hin, hout, hstay⟩ := discardAll_spec law (fun path hm => mem_attemptArea (hc path hm)) h₁
  obtain ⟨ha', hin', hout', hstay'⟩ :=
    discardAll_spec law (fun path hm => mem_attemptArea (hp path hm)) h₂
  refine ⟨(ha.mono (by simp)).trans (ha'.mono (by simp)), ?_, ?_⟩
  · intro path hm hs
    rw [List.mem_append]
    by_cases hmp : path ∈ pending
    · exact .inr (hout' path hmp hs)
    · have hmc : path ∈ copies := by simpa [hmp] using hm
      rw [ha' path (mem_attemptArea (hc path hmc)) hmp] at hs
      exact .inl (hout path hmc hs)
  · intro hnd path hm
    obtain ⟨hndc, hndp, hdis⟩ := List.nodup_append.mp hnd
    rcases List.mem_append.mp hm with hm | hm
    · have hmc := hin path hm
      refine ⟨hc path hmc, ?_⟩
      rw [ha' path (mem_attemptArea (hc path hmc)) fun hmp => hdis path hmc path hmp rfl]
      exact hstay hndc path hm
    · exact ⟨hp path (hin' path hm), hstay' hndp path hm⟩

/-- A clean-up reports what stays, if what it does not touch and is still there was reported before. -/
theorem discard_listsRemains {copies pending left first second : List Path} {s₁ s₂ : σ}
    (hc : ∀ path ∈ copies, path ∈ temporaries paths tag)
    (hp : ∀ path ∈ pending, path ∈ temporaries paths tag)
    (h₁ : discardAll fs copies s = (first, s₁)) (h₂ : discardAll fs pending s₁ = (second, s₂))
    (hnd : paths.image ≠ paths.symbols → (copies ++ pending).Nodup)
    (hrest : ∀ path ∈ temporaries paths tag, path ∉ copies ++ pending → (held s path).isSome → path ∈ left)
    (hleft : ∀ path ∈ left, path ∈ temporaries paths tag ∧ path ∉ copies ++ pending ∧ (held s path).isSome) :
    ListsRemains paths tag (held s₂) (left ++ (first ++ second)) := by
  obtain ⟨ha, hout, hstay⟩ := discard_both law hc hp h₁ h₂
  refine ⟨fun path hm hs => ?_, fun hne path hm => ?_⟩
  · by_cases hd : path ∈ copies ++ pending
    · exact List.mem_append_right _ (hout path hd hs)
    · rw [ha path (mem_attemptArea hm) hd] at hs
      exact List.mem_append_left _ (hrest path hm hd hs)
  · rcases List.mem_append.mp hm with hm | hm
    · obtain ⟨ht, hd, hs⟩ := hleft path hm
      refine ⟨ht, ?_⟩
      rwa [ha path (mem_attemptArea ht) hd]
    · exact hstay (hnd hne) path hm

/-- As long as nothing is installed, the roll-back only has to clean up. -/
theorem rollBack_of_nothing_installed {extensions : Extensions} {interruption : Interruption}
    {error : Error} {s' : σ} (himage : paths.image ∉ temporaries paths tag)
    (hsymbols : paths.symbols ∉ temporaries paths tag)
    (hnd : paths.image ≠ paths.symbols → (temporaries paths tag).Nodup)
    (h : Restorable paths written tag before interruption.progress (held s))
    (hi : interruption.progress.installed = [])
    (hr : rollBack fs extensions paths.image interruption s = (error, s')) :
    Outcome paths written tag before (held s') (.error error) := by
  have hdest : held s paths.image = before paths.image := by
    rcases h.image with ⟨-, h⟩ | ⟨hi', -⟩
    · exact h
    · simp [hi] at hi'
  have hdue : dueBackups interruption.progress.installed interruption.progress.backups =
      interruption.progress.backups.map (·.1) := by
    simp [dueBackups, hi]
  rcases h₁ : discardAll fs (interruption.progress.backups.map (·.1)) s with ⟨first, s₁⟩
  rcases h₂ : discardAll fs interruption.progress.pending s₁ with ⟨second, s₂⟩
  rw [rollBack_eq (by rw [hi]; rfl) (by rw [hdue]; exact h₁) h₂] at hr
  cases hr
  obtain ⟨ha, -, -⟩ := discard_both law (fun _ hm => h.backups_mem hm) (fun _ hm => h.pending_mem hm) h₁ h₂
  have hsub : ∀ path ∈ interruption.progress.backups.map (·.1) ++ interruption.progress.pending,
      path ∈ temporaries paths tag := by
    intro path hm
    rcases List.mem_append.mp hm with hm | hm
    · exact h.backups_mem hm
    · exact h.pending_mem hm
  refine ⟨rfl, ?_, ?_, ?_⟩
  · rw [ha paths.image (by simp [attemptArea]) fun hm => himage (hsub _ hm), hdest]
  · rw [ha paths.symbols (by simp [attemptArea]) fun hm => hsymbols (hsub _ hm), h.symbols]
  · refine discard_listsRemains law (fun _ hm => h.backups_mem hm) (fun _ hm => h.pending_mem hm) h₁ h₂
      (fun hne => ?_) (fun path hm hd hs => ?_) fun path hm => absurd hm List.not_mem_nil
    · exact ((List.perm_append_comm.nodup_iff).mp (hnd hne)).sublist ((h.backups.map _).append h.pending)
    · rw [List.mem_append, not_or] at hd
      exact absurd (h.rest path hm hd.2 hd.1) (Option.isSome_iff_ne_none.mp hs)

section ImageInstalled

variable {progress : Progress} {now : Holdings} (hnd : (attemptArea paths tag).Nodup)
  (h : Restorable paths written tag before progress now)

omit law

theorem mem_copy : paths.image.sibling "backup" tag ∈ temporaries paths tag := by simp [temporaries, backups]

include hnd in
theorem image_notMem : paths.image ∉ temporaries paths tag := by
  simp only [attemptArea, List.nodup_cons, List.mem_cons, not_or] at hnd
  exact hnd.1.2

include hnd in
theorem symbols_notMem : paths.symbols ∉ temporaries paths tag := by
  simp only [attemptArea, List.nodup_cons] at hnd
  exact hnd.2.1

include hnd in
theorem copy_notMem_pendings : paths.image.sibling "backup" tag ∉ pendings paths tag := by
  intro hp
  simp only [pendings, List.mem_cons, List.not_mem_nil, or_false] at hp
  rcases hp with hp | hp <;> simp [attemptArea, temporaries, pendings, backups, hp] at hnd

include hnd in
theorem copies_differ : paths.image.sibling "backup" tag ≠ paths.symbols.sibling "backup" tag := by
  intro he
  simp [attemptArea, temporaries, pendings, backups, he] at hnd

include h

/-- What is known once the image is installed. -/
theorem Restorable.image_installed (hi : progress.installed = [paths.image]) :
    now paths.image = some written.image ∧
    ((paths.image.sibling "backup" tag, paths.image) ∈ progress.backups →
      (before paths.image).isSome ∧ now (paths.image.sibling "backup" tag) = before paths.image) ∧
    ((paths.image.sibling "backup" tag, paths.image) ∉ progress.backups → before paths.image = none) ∧
    ((paths.symbols.sibling "backup" tag, paths.symbols) ∈ progress.backups → (before paths.symbols).isSome) := by
  rcases h.image with ⟨hi', -⟩ | ⟨-, himage⟩
  · rw [hi] at hi'
    cases hi'
  · exact himage

/-- Copied symbols are not those that the image stands under. -/
theorem Restorable.symbols_differ (hi : progress.installed = [paths.image])
    (hsame : (now paths.image).isSome → (now paths.symbols).isSome → paths.symbols.same paths.image = false)
    (hb : (paths.symbols.sibling "backup" tag, paths.symbols) ∈ progress.backups) :
    paths.symbols.same paths.image = false := by
  obtain ⟨hnew, -, -, hbefore⟩ := h.image_installed hi
  have hs := hbefore hb
  rw [← h.symbols] at hs
  exact hsame (by simp [hnew]) hs

theorem find?_not_copied (hi : progress.installed = [paths.image])
    (hsame : (now paths.image).isSome → (now paths.symbols).isSome → paths.symbols.same paths.image = false)
    (hm : (paths.image.sibling "backup" tag, paths.image) ∉ progress.backups) :
    progress.backups.find? (fun backup => backup.2.same paths.image) = none := by
  rcases sublist_pair h.backups with hb | hb | hb | hb <;> rw [hb] at hm ⊢
  · rfl
  · simp at hm
  · simp [h.symbols_differ hi hsame (by simp [hb])]
  · simp at hm

include hnd

theorem find?_copied (hm : (paths.image.sibling "backup" tag, paths.image) ∈ progress.backups) :
    progress.backups.find? (fun backup => backup.2.same paths.image) =
      some (paths.image.sibling "backup" tag, paths.image) := by
  rcases sublist_pair h.backups with hb | hb | hb | hb <;> rw [hb] at hm ⊢
  · simp at hm
  · simp [same_self]
  · exact absurd (congrArg Prod.fst (List.mem_singleton.mp hm)) (copies_differ hnd)
  · simp [same_self]

/-- Without a copy of the image, nothing stands where it would be. -/
theorem copy_missing (hm : (paths.image.sibling "backup" tag, paths.image) ∉ progress.backups) :
    now (paths.image.sibling "backup" tag) = none := by
  refine h.rest _ mem_copy (fun hp => copy_notMem_pendings hnd (h.pending.subset hp)) ?_
  rcases sublist_pair h.backups with hb | hb | hb | hb <;> rw [hb] at hm ⊢
  · simp
  · simp at hm
  · intro he
    exact copies_differ hnd (List.mem_singleton.mp he)
  · simp at hm

/-- What is due for removal beside the image are other temporary files. -/
theorem due_image : ∀ path ∈ dueBackups [paths.image] progress.backups ++ progress.pending,
    path ∈ temporaries paths tag ∧ path ≠ paths.image.sibling "backup" tag := by
  intro path hp
  rcases List.mem_append.mp hp with hp | hp
  · obtain rfl := dueBackups_image h hp
    exact ⟨by simp [temporaries, backups], (copies_differ hnd).symm⟩
  · refine ⟨h.pending_mem hp, ?_⟩
    rintro rfl
    exact copy_notMem_pendings hnd (h.pending.subset hp)

end ImageInstalled

/-- Taking back the image brings its predecessor back or leaves the image where it is; a copy that
could not be moved back is reported. -/
theorem takeBack_image {progress : Progress} {answer : Bool} {left : List Path} {s' : σ}
    (hnd : (attemptArea paths tag).Nodup)
    (hsame : (held s paths.image).isSome → (held s paths.symbols).isSome →
      paths.symbols.same paths.image = false)
    (h : Restorable paths written tag before progress (held s)) (hi : progress.installed = [paths.image])
    (ht : takeBack fs progress.backups paths.image s = ((answer, left), s')) :
    AgreeExcept (attemptArea paths tag) [paths.image, paths.image.sibling "backup" tag] (held s) (held s') ∧
      (answer = true → left = [] ∧ held s' paths.image = before paths.image ∧
        held s' (paths.image.sibling "backup" tag) = none) ∧
      (answer = false → held s' paths.image = some written.image ∧
        ((paths.image.sibling "backup" tag, paths.image) ∈ progress.backups →
          left = [paths.image.sibling "backup" tag] ∧
            (held s' (paths.image.sibling "backup" tag)).isSome) ∧
        ((paths.image.sibling "backup" tag, paths.image) ∉ progress.backups →
          left = [] ∧ held s' (paths.image.sibling "backup" tag) = none)) := by
  obtain ⟨himage, hcopy, hmissing, -⟩ := h.image_installed hi
  have harea : paths.image.sibling "backup" tag ∈ attemptArea paths tag := mem_attemptArea mem_copy
  have hdis : paths.image.sibling "backup" tag ≠ paths.image := by
    intro he
    exact image_notMem hnd (he ▸ mem_copy)
  by_cases hm : (paths.image.sibling "backup" tag, paths.image) ∈ progress.backups
  · obtain ⟨hsome, hheld⟩ := hcopy hm
    unfold takeBack at ht
    simp only [find?_copied hnd h hm, state_bind_apply] at ht
    rcases hr : fs.rename (paths.image.sibling "backup" tag) paths.image s with ⟨fault | ⟨⟩, s₁⟩ <;>
      rw [hr] at ht <;> cases ht
    · have ha := (law.rename harea (by simp [attemptArea]) hdis hr).2 (by simp)
      refine ⟨ha.mono (by simp), by simp, fun _ => ⟨?_, fun _ => ⟨rfl, ?_⟩, fun hn => absurd hm hn⟩⟩
      · rw [ha _ (by simp [attemptArea]) (by simp), himage]
      · rwa [ha _ harea (by simp), hheld]
    · obtain ⟨ha, -, hto, hfrom⟩ := (law.rename harea (by simp [attemptArea]) hdis hr).1 rfl
      exact ⟨ha.mono (by simp), fun _ => ⟨rfl, hto.trans hheld, hfrom⟩, by simp⟩
  · have hnone := copy_missing hnd h hm
    unfold takeBack at ht
    simp only [find?_not_copied h hi hsame hm, state_bind_apply] at ht
    rcases hr : fs.remove paths.image s with ⟨fault | ⟨⟩, s₁⟩ <;> rw [hr] at ht <;> cases ht
    · have ha := (law.remove (by simp [attemptArea]) hr).2 (by simp)
      refine ⟨ha.mono (by simp), (fun hok => by cases hok), fun _ => ⟨?_, fun hn => absurd hn hm, fun _ => ⟨rfl, ?_⟩⟩⟩
      · rw [ha _ (by simp [attemptArea]) (by simp), himage]
      · rw [ha _ harea (by simp), hnone]
    · obtain ⟨ha, -, hgone⟩ := (law.remove (by simp [attemptArea]) hr).1 rfl
      refine ⟨ha.mono (by simp), fun _ => ⟨rfl, hgone.trans (hmissing hm).symm, ?_⟩, fun hno => by cases hno⟩
      rw [ha _ harea (by simpa using hdis), hnone]

/-- Whether the image was taken back or not, its copy is reported exactly if it is still there. -/
theorem left_of_takeBack {progress : Progress} {answer : Bool} {left : List Path} {s' : σ}
    (hnd : (attemptArea paths tag).Nodup)
    (hsame : (held s paths.image).isSome → (held s paths.symbols).isSome →
      paths.symbols.same paths.image = false)
    (h : Restorable paths written tag before progress (held s)) (hi : progress.installed = [paths.image])
    (ht : takeBack fs progress.backups paths.image s = ((answer, left), s')) :
    ∀ path, path ∈ left ↔
      path = paths.image.sibling "backup" tag ∧ (held s' (paths.image.sibling "backup" tag)).isSome := by
  intro path
  obtain ⟨-, hyes, hno⟩ := takeBack_image law hnd hsame h hi ht
  cases answer with
  | true =>
    obtain ⟨rfl, -, hnone⟩ := hyes rfl
    simp [hnone]
  | false =>
    obtain ⟨-, hin, hnot⟩ := hno rfl
    by_cases hb : (paths.image.sibling "backup" tag, paths.image) ∈ progress.backups
    · obtain ⟨rfl, hs⟩ := hin hb
      simp [hs]
    · obtain ⟨rfl, hnone⟩ := hnot hb
      simp [hnone]

/-- Once the image is installed, the roll-back restores the destination or leaves the new image over
the old symbols. -/
theorem rollBack_of_image_installed {extensions : Extensions} {interruption : Interruption}
    {error : Error} {s' : σ} (hnd : (attemptArea paths tag).Nodup)
    (hsame : (held s paths.image).isSome → (held s paths.symbols).isSome →
      paths.symbols.same paths.image = false)
    (h : Restorable paths written tag before interruption.progress (held s))
    (hi : interruption.progress.installed = [paths.image])
    (hr : rollBack fs extensions paths.image interruption s = (error, s')) :
    Outcome paths written tag before (held s') (.error error) := by
  rcases ht : takeBack fs interruption.progress.backups paths.image s with ⟨⟨answer, left⟩, s₁⟩
  rcases h₁ : discardAll fs (dueBackups [paths.image] interruption.progress.backups) s₁ with ⟨first, s₂⟩
  rcases h₂ : discardAll fs interruption.progress.pending s₂ with ⟨second, s₃⟩
  have hrun : (interruption.progress.installed.reverse.mapM
      (takeBack fs interruption.progress.backups)) s = ([(answer, left)], s₁) := by
    rw [hi, List.reverse_singleton, List.mapM_cons, state_bind_apply, ht]
    rfl
  rw [rollBack_eq hrun (by rw [hi]; exact h₁) h₂] at hr
  obtain ⟨ha, hyes, hno⟩ := takeBack_image law hnd hsame h hi ht
  have hleft := left_of_takeBack law hnd hsame h hi ht
  have hdue := due_image hnd h
  have hcopies : ∀ path ∈ dueBackups [paths.image] interruption.progress.backups, path ∈ temporaries paths tag :=
    fun path hm => (hdue path (List.mem_append_left _ hm)).1
  obtain ⟨ha', -, -⟩ := discard_both law hcopies (fun _ hm => h.pending_mem hm) h₁ h₂
  have hsymbols := symbols_notMem hnd
  have hheld : held s₃ paths.image = held s₁ paths.image :=
    ha' _ (by simp [attemptArea]) fun hm => image_notMem hnd (hdue _ hm).1
  have hold : held s₃ paths.symbols = before paths.symbols := by
    rw [ha' _ (by simp [attemptArea]) fun hm => hsymbols (hdue _ hm).1, ← h.symbols]
    refine ha _ (by simp [attemptArea]) ?_
    simp only [List.mem_cons, List.not_mem_nil, or_false, not_or]
    refine ⟨fun he => ?_, fun he => hsymbols (he ▸ mem_copy)⟩
    simp [attemptArea, he] at hnd
  have hlist : ListsRemains paths tag (held s₃) (left ++ (first ++ second)) := by
    refine discard_listsRemains law hcopies (fun _ hm => h.pending_mem hm) h₁ h₂ (fun _ => ?_)
      (fun path hm hd hs => ?_) fun path hm => ?_
    · have htemp : (temporaries paths tag).Nodup := (List.nodup_cons.mp (List.nodup_cons.mp hnd).2).2
      exact ((List.perm_append_comm.nodup_iff).mp htemp).sublist
        (((dueBackups_sublist _ _).trans (h.backups.map _)).append h.pending)
    · refine (hleft path).mpr ?_
      by_contra hne
      have hother : path ≠ paths.image.sibling "backup" tag := by
        rintro rfl
        exact hne ⟨rfl, hs⟩
      have himage : path ≠ paths.image := fun he => image_notMem hnd (he ▸ hm)
      rw [ha path (mem_attemptArea hm) (by simp [hother, himage])] at hs
      rw [List.mem_append, not_or] at hd
      exact absurd (h.rest path hm hd.2 fun hb =>
        hd.1 (mem_dueBackups_image h (h.symbols_differ hi hsame) hb hother)) (Option.isSome_iff_ne_none.mp hs)
    · obtain ⟨rfl, hs⟩ := (hleft path).mp hm
      exact ⟨mem_copy, fun hd => (hdue _ hd).2 rfl, hs⟩
  cases hr
  cases answer with
  | true => exact ⟨rfl, hheld.trans (hyes rfl).2.1, hold, by simpa using hlist⟩
  | false => exact ⟨rfl, hheld.trans (hno rfl).1, hold, by simpa using hlist⟩

end RollBack

end HotPatch.Publish
