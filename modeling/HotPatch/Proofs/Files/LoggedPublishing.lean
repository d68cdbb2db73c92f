import HotPatch.Proofs.Files.PublishOutcome
import HotPatch.Proofs.Files.RelatedFileSystems
import HotPatch.Proofs.Files.TracedFileSystem

/-!
# The calls of a publication

A script without faults does what its host does and keeps a log. The log of a
publication names the files of the attempt and no others; if no call in it has
failed, the new pair is installed. What a path to another place holds is the
same in every state on the way.
-/

namespace HotPatch

/-- Whether a call had the effect that it was made for. -/
def Call.succeeded : Call → Bool
  | change _ _ outcome => outcome = .done
  | query _ _ => true

def Call.paths : Call → List Path
  | change _ paths _ => paths
  | query path _ => [path]

namespace Script

variable {area : Path → Prop} {operation : Operation} {paths : List Path}
  {action : StateM Host (Except FileFault Unit)}

/-- A script without faults that stands at a host, with calls on the paths of an area in its log. -/
structure Records (area : Path → Prop) (host : Host) (script : Script) : Prop where
  host : script.host = host
  faults : script.faults = []
  calls : ∀ call ∈ script.calls, ∀ path ∈ call.paths, area path

theorem Records.log {host : Host} {script : Script} (h : Records area host script) (next : Host) {call : Call}
    (hc : ∀ path ∈ call.paths, area path) :
    Records area next { script with host := next, calls := script.calls ++ [call] } := by
  refine ⟨rfl, h.faults, fun other hm => ?_⟩
  rcases List.mem_append.mp hm with hm | hm
  · exact h.calls other hm
  · obtain rfl := List.mem_singleton.mp hm
    exact hc

theorem perform_records (hp : ∀ path ∈ paths, area path) :
    Related (Records area) (fun _ => True) action (perform operation paths action) := by
  intro host script h
  have hplanned : script.isPlanned operation = false := by simp [isPlanned, h.faults]
  obtain rfl := h.host
  simp only [perform, hplanned]
  rcases action script.host with ⟨fault | ⟨⟩, next⟩
  · exact ⟨rfl, trivial, h.log next hp⟩
  · exact ⟨rfl, trivial, h.log next hp⟩

theorem simulates_host : Host.fileSystem.Simulates Script.fileSystem (Records area) area where
  write _ hp := perform_records (by simpa using hp)
  copy hs ht := perform_records (by simpa using ⟨hs, ht⟩)
  rename hs ht := perform_records (by simpa using ⟨hs, ht⟩)
  remove hp := perform_records (by simpa using hp)
  isFile {path} hp host script h := by
    obtain rfl := h.host
    exact ⟨rfl, trivial, h.log script.host (by simpa [Call.paths] using hp)⟩
  unload path host script h := by
    obtain rfl := h.host
    exact ⟨rfl, trivial, rfl, h.faults, h.calls⟩

/-- Some call in the log has failed. -/
def HasFailed (script : Script) : Prop := ∃ call ∈ script.calls, call.succeeded = false

theorem hasFailed_of_error {fault : FileFault} {script script' : Script}
    (h : perform operation paths action script = (.error fault, script')) : script'.HasFailed := by
  unfold perform at h
  dsimp only at h
  split_ifs at h
  · cases h
    exact ⟨_, List.mem_append_right _ List.mem_cons_self, rfl⟩
  · rcases ha : action script.host with ⟨fault | ⟨⟩, host⟩ <;> rw [ha] at h <;> cases h
    exact ⟨_, List.mem_append_right _ List.mem_cons_self, rfl⟩

theorem HasFailed.log {script : Script} (h : script.HasFailed) {host : Host} {calls : List Call} :
    HasFailed { script with host, calls := script.calls ++ calls } := by
  obtain ⟨call, hm, hc⟩ := h
  exact ⟨call, List.mem_append_left _ hm, hc⟩

/-- What has failed stays in the log. -/
theorem perform_keeps : Related (fun script script' : Script => script = script' ∧ script.HasFailed)
    (fun _ => True) (perform operation paths action) (perform operation paths action) := by
  rintro script _ ⟨rfl, h⟩
  refine ⟨rfl, trivial, rfl, ?_⟩
  unfold perform
  dsimp only
  split_ifs
  · exact h.log
  · rcases action script.host with ⟨fault | ⟨⟩, host⟩ <;> exact h.log

theorem simulates_self : Script.fileSystem.Simulates Script.fileSystem
    (fun script script' => script = script' ∧ script.HasFailed) area where
  write _ _ := perform_keeps
  copy _ _ := perform_keeps
  rename _ _ := perform_keeps
  remove _ := perform_keeps
  isFile _ := by
    rintro script _ ⟨rfl, h⟩
    exact ⟨rfl, trivial, rfl, h.log⟩
  unload _ := by
    rintro script _ ⟨rfl, h⟩
    exact ⟨rfl, trivial, rfl, h⟩

end Script

namespace Publish

variable {paths : PublishedPaths} {written : Image.Written} {tag : String} {script : Script}

/-- An attempt is interrupted because a call has failed. -/
abbrev Blames (attempt : Attempt Script Progress) (script : Script) : Prop :=
  Ensures attempt script (fun _ _ => True) fun _ script' => script'.HasFailed

theorem carryOut_blames {operation : Operation} {files : List Path} {action : StateM Host (Except FileFault Unit)}
    {progress : Progress} {step : String} :
    Ensures (carryOut (Script.perform operation files action) progress step) script (fun _ _ => True)
      (fun _ script' => script'.HasFailed) := by
  have hcarried : Ensures (carryOut (Script.perform operation files action) progress step) script
      (fun _ _ => True) (fun interruption script' => interruption.progress = progress ∧ script'.HasFailed) := by
    apply carryOut_ensures
    · exact fun _ _ => trivial
    · exact fun fault script' h => Script.hasFailed_of_error h
  exact hcarried.mono (fun _ _ h => h) fun _ _ h => h.2

theorem foldlM_blames {α : Type} {items : List α} {step : Progress → α → Attempt Script Progress}
    (h : ∀ progress item script, Blames (step progress item) script) (start : Progress) :
    Blames (items.foldlM step start) script :=
  Ensures.foldlM (fun progress item _ script _ => h progress item script) start trivial

theorem backUp_blames (progress : Progress) (path : Path) (script : Script) :
    Blames (backUp Script.fileSystem tag progress path) script := by
  unfold backUp
  have hasked : Ensures (liftM (Script.fileSystem.isFile path) : Attempt Script Bool) script (fun _ _ => True)
    (fun _ script' => script'.HasFailed) := .lift trivial
  apply hasked.bind
  intro answer script' _
  split_ifs
  · exact carryOut_blames.bind fun _ _ _ => trivial
  · exact trivial

theorem replace_blames : Blames (replace Script.fileSystem paths written tag) script := by
  have hwrite : ∀ progress file script, Blames (writePending Script.fileSystem tag progress file) script :=
    fun _ _ _ => carryOut_blames.bind fun _ _ _ => trivial
  have hinstall : ∀ progress file script, Blames (install Script.fileSystem progress file) script :=
    fun _ _ _ => carryOut_blames.bind fun _ _ _ => trivial
  apply (foldlM_blames hwrite _).bind
  intro progress script _
  apply (foldlM_blames backUp_blames _).bind
  intro progress script _
  have hunload : Ensures (liftM (Script.fileSystem.unload paths.image) : Attempt Script Unit) script
    (fun _ _ => True) (fun _ script' => script'.HasFailed) := .lift trivial
  apply hunload.bind
  intro _ script _
  exact foldlM_blames hinstall _

variable {extensions : Extensions} {destination : Path} {host : Host}

/-- The calls that publishing makes on a host. -/
def calls (extensions : Extensions) (destination : Path) (written : Image.Written) (tag : String) (host : Host) :
    List Call :=
  (publish Script.fileSystem extensions destination written tag { host }).2.calls

/-- The script answers what the host answers and leads to the same host, and its log names the files of the
attempt only. -/
theorem publish_records (extensions : Extensions) (destination : Path) (written : Image.Written) (tag : String)
    (host : Host) :
    (publish Host.fileSystem extensions destination written tag host).1 =
      (publish Script.fileSystem extensions destination written tag { host }).1 ∧
    (publish Script.fileSystem extensions destination written tag { host }).2.host =
      (publish Host.fileSystem extensions destination written tag host).2 ∧
    ∀ call ∈ calls extensions destination written tag host, ∀ path ∈ call.paths,
      path ∈ attemptArea (extensions.paths destination) tag := by
  have hstart : Script.Records (· ∈ attemptArea (extensions.paths destination) tag) host { host } :=
    ⟨rfl, rfl, List.forall_mem_nil _⟩
  obtain ⟨ha, -, hr⟩ := publish_related Script.simulates_host (fun _ h => h) written host { host } hstart
  exact ⟨ha, hr.host, hr.calls⟩

/-- A script publishes the pair, or its log tells of a failure. -/
theorem publish_ok_or_hasFailed {script' : Script} {result : Result PublishedPaths}
    (hcheck : extensions.check = .ok ())
    (h : publish Script.fileSystem extensions destination written tag script = (result, script')) :
    result = .ok (extensions.paths destination) ∨ script'.HasFailed := by
  have hblames : Blames (replace Script.fileSystem (extensions.paths destination) written tag) script :=
    replace_blames
  rw [publish_of_ok _ _ _ _ hcheck, exchange_eq] at h
  rw [Blames, Ensures] at hblames
  rcases hr : replace Script.fileSystem (extensions.paths destination) written tag script with
    ⟨interruption | progress, script₁⟩ <;> simp only [hr] at h hblames <;> cases h
  · right
    have hw : interruption.progress.Within fun _ => True :=
      ⟨fun _ _ => trivial, fun _ _ => trivial, fun _ _ => trivial⟩
    exact (rollBack_related Script.simulates_self extensions _ hw script₁ script₁ ⟨rfl, hblames⟩).2.2.2
  · exact .inl rfl

/-- If every call succeeds, publishing does. -/
theorem publish_of_succeeded (hcheck : extensions.check = .ok ())
    (hc : ∀ call ∈ calls extensions destination written tag host, call.succeeded) :
    (publish Host.fileSystem extensions destination written tag host).1 = .ok (extensions.paths destination) := by
  rw [(publish_records extensions destination written tag host).1]
  rw [calls] at hc
  rcases hr : publish Script.fileSystem extensions destination written tag { host } with ⟨result, script⟩
  rw [hr] at hc
  apply (publish_ok_or_hasFailed hcheck hr).resolve_right
  rintro ⟨call, hm, hf⟩
  rw [hc call hm] at hf
  cases hf

end Publish

/-- Listing the states keeps what holds throughout. -/
theorem record_related {σ α : Type} {allowed : σ → Prop} {operation : StateM σ α}
    (h : ∀ s, allowed s → allowed (operation s).2) :
    Related (fun s (state : Traced σ) => state.1 = s ∧ Throughout allowed state) (fun _ => True) operation
      (record operation) := by
  rintro s state ⟨rfl, ht⟩
  exact ⟨rfl, trivial, rfl, ht.next rfl (h state.1 ht.1)⟩

namespace Host

variable {look : Path} {area : Path → Prop} {contents : Option Bytes}

theorem held_apply {operation : Disk → Except FileFault Disk} {host : Host}
    (h : ∀ disk, operation host.disk = .ok disk → disk.held look = host.disk.held look) :
    (apply operation host).2.disk.held look = host.disk.held look := by
  rcases ha : apply operation host with ⟨result, next⟩
  obtain ⟨-, hok⟩ | ⟨-, rfl⟩ := apply_cases operation ha
  · exact h next.disk hok
  · rfl

/-- Work on files at other places leaves alone what a path holds, in every state on the way. -/
theorem simulates_traced (ha : ∀ path, area path → path.NamesFile ∧ look.location ≠ path.location) :
    Host.fileSystem.Simulates Host.fileSystem.traced
      (fun host state => state.1 = host ∧ Throughout (fun host => host.disk.held look = contents) state) area where
  write _ hp := record_related fun _ h => (held_apply fun _ hw => Disk.held_write_ne (ha _ hp).1 hw (ha _ hp).2).trans h
  copy _ ht := record_related fun _ h => (held_apply fun _ hc => Disk.held_copy_ne (ha _ ht).1 hc (ha _ ht).2).trans h
  rename hs ht := record_related fun _ h =>
    (held_apply fun _ hr => Disk.held_rename_ne hr (ha _ hs).2 (ha _ ht).2).trans h
  remove hp := record_related fun _ h => (held_apply fun _ hr => Disk.held_remove_ne hr (ha _ hp).2).trans h
  isFile _ := record_related fun _ h => h
  unload _ := record_related fun _ h => h

end Host

/-- Publishing never touches what a path to another place holds. -/
theorem Publish.passed_held {extensions : Extensions} {destination look : Path} {tag : String} {host : Host}
    (ha : ∀ path ∈ attemptArea (extensions.paths destination) tag,
      path.NamesFile ∧ look.location ≠ path.location) (written : Image.Written) :
    ∀ state ∈ passed Host.fileSystem extensions destination written tag host,
      state.disk.held look = host.disk.held look := by
  have hstart : Throughout (fun state : Host => state.disk.held look = host.disk.held look) (host, [host]) :=
    ⟨rfl, List.forall_mem_singleton.mpr rfl⟩
  obtain ⟨-, -, -, hall⟩ := publish_related (Host.simulates_traced ha) (fun _ h => h) written host (host, [host])
    ⟨rfl, hstart⟩
  exact fun state hm => hall.2 state (List.mem_reverse.mp hm)

end HotPatch
