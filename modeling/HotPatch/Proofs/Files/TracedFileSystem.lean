import HotPatch.Proofs.Ensures
import HotPatch.Proofs.Files.LawfulFileSystem

/-!
# The states that publishing passes through

A traced file system works like the one that it is made of and lists the state
after each operation. Publishing on the traced file system gives the same answer
and leads to the same state, so the list tells what an observer may see while
publishing is under way.
-/

namespace HotPatch

variable {σ α β : Type}

/-- A state, and the states that have led to it, the last one first. -/
abbrev Traced (σ : Type) := σ × List σ

/-- Lists the state that an operation leads to. -/
def record (operation : StateM σ α) : StateM (Traced σ) α := fun state =>
  let (value, next) := operation state.1
  (value, next, next :: state.2)

/-- The file system that lists the states it passes through. -/
def FileSystem.traced (fs : FileSystem σ) : FileSystem (Traced σ) where
  write path bytes := record (fs.write path bytes)
  copy source target := record (fs.copy source target)
  rename source target := record (fs.rename source target)
  remove path := record (fs.remove path)
  isFile path := record (fs.isFile path)
  unload path := record (fs.unload path)

theorem record_eq {operation : StateM σ α} {state state' : Traced σ} {value : α} :
    record operation state = (value, state') ↔
      operation state.1 = (value, state'.1) ∧ state'.2 = state'.1 :: state.2 := by
  obtain ⟨s, past⟩ := state
  obtain ⟨s', past'⟩ := state'
  unfold record
  rcases operation s with ⟨value', next⟩
  constructor
  · intro h
    cases h
    exact ⟨rfl, rfl⟩
  · rintro ⟨h, hpast⟩
    dsimp only at hpast
    subst hpast
    cases h
    rfl

/-- What holds of a state and of those that have led to it. -/
def Throughout (allowed : σ → Prop) (state : Traced σ) : Prop :=
  allowed state.1 ∧ ∀ s ∈ state.2, allowed s

theorem Throughout.next {allowed : σ → Prop} {state state' : Traced σ} (h : Throughout allowed state)
    (hl : state'.2 = state'.1 :: state.2) (ha : allowed state'.1) : Throughout allowed state' := by
  refine ⟨ha, fun s hm => ?_⟩
  rw [hl, List.mem_cons] at hm
  rcases hm with rfl | hm
  · exact ha
  · exact h.2 s hm

/-- Listing the states breaks no law. -/
theorem FileSystem.Lawful.traced {fs : FileSystem σ} {held : σ → Holdings} {area : List Path}
    (law : fs.Lawful held area) : fs.traced.Lawful (fun state => held state.1) area where
  write hp h := law.write hp (record_eq.mp h).1
  copy hs ht hne h := law.copy hs ht hne (record_eq.mp h).1
  rename hs ht hne h := law.rename hs ht hne (record_eq.mp h).1
  remove hp h := law.remove hp (record_eq.mp h).1
  isFile hp h := law.isFile hp (record_eq.mp h).1
  unload path state := law.unload path state.1
  folder hp hf := law.folder hp hf

/-- The second computation does what the first one does and puts new states in front of the list, so
that the state it leads to comes first. -/
def Follows (plain : StateM σ α) (listing : StateM (Traced σ) α) : Prop :=
  ∀ s past, ∃ new, listing (s, past) = ((plain s).1, (plain s).2, new ++ past) ∧
    (new ++ [s]).head? = some (plain s).2

namespace Follows

variable {plain : StateM σ α} {listing : StateM (Traced σ) α}

theorem record (operation : StateM σ α) : Follows operation (record operation) := fun s _ =>
  ⟨[(operation s).2], rfl, rfl⟩

theorem pure (value : α) : Follows (Pure.pure value : StateM σ α) (Pure.pure value) := fun _ _ =>
  ⟨[], rfl, rfl⟩

theorem bind {next : α → StateM σ β} {next' : α → StateM (Traced σ) β} (h : Follows plain listing)
    (hn : ∀ value, Follows (next value) (next' value)) : Follows (plain >>= next) (listing >>= next') := by
  intro s past
  obtain ⟨new, hl, hlast⟩ := h s past
  obtain ⟨more, hm, hmore⟩ := hn (plain s).1 (plain s).2 (new ++ past)
  refine ⟨more ++ new, ?_, ?_⟩
  · rw [state_bind_apply, state_bind_apply, hl, hm, List.append_assoc]
  · rw [state_bind_apply, List.append_assoc, List.head?_append, hlast, ← hmore, List.head?_append]
    rfl

theorem mapM {items : List β} {step : β → StateM σ α} {step' : β → StateM (Traced σ) α}
    (h : ∀ item, Follows (step item) (step' item)) : Follows (items.mapM step) (items.mapM step') := by
  induction items with
  | nil => exact pure []
  | cons item items ih =>
    rw [List.mapM_cons, List.mapM_cons]
    exact (h item).bind fun _ => ih.bind fun _ => pure _

theorem forM {items : List β} {step : β → StateM σ PUnit} {step' : β → StateM (Traced σ) PUnit}
    (h : ∀ item, Follows (step item) (step' item)) : Follows (items.forM step) (items.forM step') := by
  induction items with
  | nil => exact pure PUnit.unit
  | cons item items ih =>
    rw [List.forM_eq_forM, List.forM_eq_forM, List.forM_cons, List.forM_cons]
    exact (h item).bind fun _ => ih

section Attempts

variable {ε : Type} {attempt : ExceptT ε (StateM σ) α} {attempt' : ExceptT ε (StateM (Traced σ)) α}

/-- A computation that may fail is followed to either end. -/
theorem attempt_bind {next : α → ExceptT ε (StateM σ) β} {next' : α → ExceptT ε (StateM (Traced σ)) β}
    (h : Follows attempt.run attempt'.run) (hn : ∀ value, Follows (next value).run (next' value).run) :
    Follows (attempt >>= next).run (attempt' >>= next').run := by
  rw [ExceptT.run_bind, ExceptT.run_bind]
  refine h.bind fun result => ?_
  rcases result with error | value
  · exact pure _
  · exact hn value

theorem foldlM {items : List β} {step : α → β → ExceptT ε (StateM σ) α}
    {step' : α → β → ExceptT ε (StateM (Traced σ)) α} {start : α}
    (h : ∀ value item, Follows (step value item).run (step' value item).run) :
    Follows (items.foldlM step start).run (items.foldlM step' start).run := by
  induction items generalizing start with
  | nil => exact pure _
  | cons item items ih =>
    rw [List.foldlM_cons, List.foldlM_cons]
    exact attempt_bind (h start item) fun _ => ih

theorem lift {plain : StateM σ α} {listing : StateM (Traced σ) α} (h : Follows plain listing) :
    Follows (liftM plain : ExceptT ε (StateM σ) α).run (liftM listing : ExceptT ε (StateM (Traced σ)) α).run :=
  h.bind fun _ => pure _

end Attempts

end Follows

/-- All states that a computation lists look like the one it started from. -/
def Calm (look : σ → β) (action : StateM (Traced σ) α) : Prop :=
  ∀ state, ∃ new, (action state).2.2 = new ++ state.2 ∧ (∀ s ∈ new, look s = look state.1) ∧
    look (action state).2.1 = look state.1

namespace Calm

variable {look : σ → β} {action : StateM (Traced σ) α} {γ ε : Type}

theorem record {operation : StateM σ α} (h : ∀ s, look (operation s).2 = look s) :
    Calm look (record operation) := fun state =>
  ⟨[(operation state.1).2], rfl, by simpa using h state.1, h state.1⟩

theorem pure (value : α) : Calm look (Pure.pure value : StateM (Traced σ) α) := fun _ => ⟨[], rfl, by simp, rfl⟩

theorem bind {next : α → StateM (Traced σ) γ} (h : Calm look action) (hn : ∀ value, Calm look (next value)) :
    Calm look (action >>= next) := by
  intro state
  obtain ⟨new, hnew, hlook, hend⟩ := h state
  obtain ⟨more, hmore, hlook', hend'⟩ := hn (action state).1 (action state).2
  refine ⟨more ++ new, ?_, fun s hs => ?_, ?_⟩
  · rw [state_bind_apply, hmore, hnew, List.append_assoc]
  · rcases List.mem_append.mp hs with hs | hs
    · exact (hlook' s hs).trans hend
    · exact hlook s hs
  · rw [state_bind_apply, hend', hend]

theorem mapM {items : List γ} {step : γ → StateM (Traced σ) α} (h : ∀ item ∈ items, Calm look (step item)) :
    Calm look (items.mapM step) := by
  induction items with
  | nil => exact pure []
  | cons item items ih =>
    rw [List.mapM_cons]
    exact (h item (by simp)).bind fun _ => (ih fun other ho => h other (by simp [ho])).bind fun _ => pure _

theorem forM {items : List γ} {step : γ → StateM (Traced σ) PUnit} (h : ∀ item ∈ items, Calm look (step item)) :
    Calm look (items.forM step) := by
  induction items with
  | nil => exact pure PUnit.unit
  | cons item items ih =>
    rw [List.forM_eq_forM, List.forM_cons]
    exact (h item (by simp)).bind fun _ => ih fun other ho => h other (by simp [ho])

theorem attempt_bind {attempt : ExceptT ε (StateM (Traced σ)) α} {next : α → ExceptT ε (StateM (Traced σ)) γ}
    (h : Calm look attempt.run) (hn : ∀ value, Calm look (next value).run) :
    Calm look (attempt >>= next).run := by
  rw [ExceptT.run_bind]
  refine h.bind fun result => ?_
  rcases result with error | value
  · exact pure _
  · exact hn value

theorem lift (h : Calm look action) : Calm look (liftM action : ExceptT ε (StateM (Traced σ)) α).run :=
  h.bind fun _ => pure _

theorem foldlM {items : List γ} {step : α → γ → ExceptT ε (StateM (Traced σ)) α} {start : α}
    (h : ∀ value, ∀ item ∈ items, Calm look (step value item).run) :
    Calm look (items.foldlM step start).run := by
  induction items generalizing start with
  | nil => exact pure _
  | cons item items ih =>
    rw [List.foldlM_cons]
    exact attempt_bind (h start item (by simp)) fun _ => ih fun value other ho => h value other (by simp [ho])

/-- What holds of the looks of all states so far goes on holding. -/
theorem throughout (h : Calm look action) {allowed : β → Prop} {state : Traced σ}
    (hs : Throughout (fun s => allowed (look s)) state) :
    Throughout (fun s => allowed (look s)) (action state).2 := by
  obtain ⟨new, hnew, hlook, hend⟩ := h state
  have hnow : allowed (look state.1) := hs.1
  refine ⟨show allowed _ from hend ▸ hnow, fun s hm => show allowed _ from ?_⟩
  rw [hnew] at hm
  rcases List.mem_append.mp hm with hm | hm
  · exact (hlook s hm) ▸ hnow
  · exact hs.2 s hm

theorem ensures {attempt : ExceptT ε (StateM (Traced σ)) α} (h : Calm look attempt.run) {allowed : β → Prop}
    {state : Traced σ} (hs : Throughout (fun s => allowed (look s)) state) :
    Ensures attempt state
      (fun _ state' => look state'.1 = look state.1 ∧ Throughout (fun s => allowed (look s)) state')
      (fun _ state' => look state'.1 = look state.1 ∧ Throughout (fun s => allowed (look s)) state') := by
  have hlook : look (attempt.run state).2.1 = look state.1 := (h state).choose_spec.2.2
  have hthrough := h.throughout hs
  rw [ExceptT.run] at hlook hthrough
  rw [Ensures]
  rcases hr : attempt state with ⟨error | value, state'⟩ <;> rw [hr] at hlook hthrough <;>
    exact ⟨hlook, hthrough⟩

end Calm

namespace Publish

variable (fs : FileSystem σ)

theorem carryOut_follows {operation : StateM σ (Except FileFault Unit)}
    {listing : StateM (Traced σ) (Except FileFault Unit)} (h : Follows operation listing) (progress : Progress)
    (step : String) : Follows (carryOut operation progress step).run (carryOut listing progress step).run := by
  refine Follows.attempt_bind h.lift fun result => ?_
  rcases result with fault | ⟨⟩
  · exact .pure _
  · exact .pure _

theorem writePending_follows (tag : String) (progress : Progress) (file : Path × Bytes) :
    Follows (writePending fs tag progress file).run (writePending fs.traced tag progress file).run :=
  Follows.attempt_bind (carryOut_follows (.record _) _ _) fun _ => .pure _

theorem backUp_follows (tag : String) (progress : Progress) (path : Path) :
    Follows (backUp fs tag progress path).run (backUp fs.traced tag progress path).run := by
  refine Follows.attempt_bind (Follows.record (fs.isFile path)).lift fun answer => ?_
  rcases answer with - | -
  · exact .pure _
  · exact Follows.attempt_bind (carryOut_follows (.record _) _ _) fun _ => .pure _

theorem install_follows (progress : Progress) (file : Path × Path) :
    Follows (install fs progress file).run (install fs.traced progress file).run :=
  Follows.attempt_bind (carryOut_follows (.record _) _ _) fun _ => .pure _

theorem replace_follows (paths : PublishedPaths) (written : Image.Written) (tag : String) :
    Follows (replace fs paths written tag).run (replace fs.traced paths written tag).run := by
  refine Follows.attempt_bind (Follows.foldlM (writePending_follows fs tag)) fun progress => ?_
  refine Follows.attempt_bind (Follows.foldlM (backUp_follows fs tag)) fun progress => ?_
  refine Follows.attempt_bind (Follows.record (fs.unload paths.image)).lift fun _ => ?_
  exact Follows.foldlM (install_follows fs)

theorem takeBack_follows (backups : List (Path × Path)) (target : Path) :
    Follows (takeBack fs backups target) (takeBack fs.traced backups target) := by
  unfold takeBack
  rcases hf : backups.find? fun backup => backup.2.same target with - | ⟨backup, _⟩ <;> simp only [hf]
  · exact (Follows.record _).bind fun _ => .pure _
  · exact (Follows.record _).bind fun _ => .pure _

theorem discard_follows (path : Path) : Follows (discard fs path) (discard fs.traced path) := by
  refine (Follows.record (fs.isFile path)).bind fun answer => ?_
  rcases answer with - | -
  · exact .pure _
  · exact (Follows.record (fs.remove path)).bind fun _ => .pure _

theorem discardBackup_follows (installed : List Path) (backup : Path × Path) :
    Follows (discardBackup fs installed backup) (discardBackup fs.traced installed backup) := by
  unfold discardBackup
  split_ifs
  · exact .pure _
  · exact discard_follows fs backup.1

theorem rollBack_follows (extensions : Extensions) (image : Path) (interruption : Interruption) :
    Follows (rollBack fs extensions image interruption) (rollBack fs.traced extensions image interruption) := by
  refine (Follows.mapM (takeBack_follows fs _)).bind fun restored => ?_
  refine (Follows.mapM (discardBackup_follows fs _)).bind fun backups => ?_
  refine (Follows.mapM (discard_follows fs)).bind fun pending => ?_
  dsimp only
  split_ifs
  · exact .pure _
  · exact .pure _

theorem exchange_follows (extensions : Extensions) (paths : PublishedPaths) (written : Image.Written)
    (tag : String) :
    Follows (exchange fs extensions paths written tag) (exchange fs.traced extensions paths written tag) := by
  refine (replace_follows fs paths written tag).bind fun result => ?_
  rcases result with interruption | progress
  · exact (rollBack_follows fs extensions _ interruption).bind fun _ => .pure _
  · refine (Follows.forM fun backup => ?_).bind fun _ => .pure _
    exact (Follows.record (fs.remove backup.1)).bind fun _ => .pure _

/-- Publishing does not depend on whether the states are listed. -/
theorem publish_follows (extensions : Extensions) (destination : Path) (written : Image.Written) (tag : String) :
    Follows (publish fs extensions destination written tag)
      (publish fs.traced extensions destination written tag) := by
  unfold publish
  rcases extensions.check with error | ⟨⟩
  · exact .pure _
  · exact exchange_follows fs extensions _ written tag

/-- The states that publishing passes through, from the first one to the last one. -/
def passed (extensions : Extensions) (destination : Path) (written : Image.Written) (tag : String) (s : σ) :
    List σ :=
  (publish fs.traced extensions destination written tag (s, [s])).2.2.reverse

/-- The states lead from the first one to the one that publishing ends in. -/
theorem passed_ends (extensions : Extensions) (destination : Path) (written : Image.Written) (tag : String)
    (s : σ) :
    (passed fs extensions destination written tag s).head? = some s ∧
      (passed fs extensions destination written tag s).getLast? =
        some (publish fs extensions destination written tag s).2 := by
  obtain ⟨new, hn, hlast⟩ := publish_follows fs extensions destination written tag s [s]
  rw [passed, hn, List.head?_reverse, List.getLast?_reverse]
  exact ⟨List.getLast?_concat, hlast⟩

end Publish
end HotPatch
