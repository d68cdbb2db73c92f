import HotPatch.Proofs.Patch.Frame
import HotPatch.Proofs.Patch.SessionRuns

/-!
# The order of runs

A session patches modules in some order. The files of the modules that are done
are settled, those of all others are untouched, and each further run moves one
module from the second kind to the first. So the order does not matter.
-/

namespace HotPatch.Session

open Publish (attemptArea)

/-- The operations of runs one after another. -/
def callsAll (setup : SessionSetup) (tag : Nat → String) : List String → Session → List Call
  | [], _ => []
  | module :: modules, session =>
    calls setup tag module session ++ callsAll setup tag modules (patch setup tag module session).2

theorem patchAll_cons (setup : SessionSetup) (tag : Nat → String) (module : String) (modules : List String)
    (session : Session) :
    patchAll setup tag (module :: modules) session =
      let next := (patch setup tag module session).2
      ((module, (patch setup tag module session).1) :: (patchAll setup tag modules next).1,
        (patchAll setup tag modules next).2) := by
  rw [patchAll, List.mapM_cons]
  rfl

variable {setup : SessionSetup} {folder : Path} {tag : Nat → String} {own : String → Nat → String}
  {start session : Session} {done : List String} {module : String}

/-- If nothing stands in the way of any file that the runs may work on, no call of the whole session fails. -/
theorem callsAll_succeed {order : List String} {bound : Nat} (hfolder : setup.outputFolder = some folder)
    (hx : setup.context.config.extensions.Plain) (ht : ∀ number, IsTag (tag number))
    (hplain : ∀ module ∈ order, '/' ∉ module.toList) (hfree : ∀ name, session.locks.isLocked name = false)
    (hbound : session.publications + order.length ≤ bound)
    (hclear : ∀ module ∈ order, ∀ number < bound,
      ∀ path ∈ attemptArea (setup.context.config.extensions.paths (destination setup folder module)) (tag number),
        session.host.disk.Clear path) :
    ∀ call ∈ callsAll setup tag order session, call.succeeded := by
  induction order generalizing session with
  | nil => exact List.forall_mem_nil _
  | cons module order ih =>
    rw [List.forall_mem_cons] at hplain hclear
    rw [List.length_cons] at hbound
    obtain ⟨hcalls, hsame⟩ := calls_succeed hfolder hx ht hplain.1 (hfree module)
      (hclear.1 session.publications (by omega))
    rw [callsAll, List.forall_mem_append]
    refine ⟨hcalls, ih hplain.2 (fun name => ?_) ?_ fun other ho number hn path hp => ?_⟩
    · rw [locks_patch, hfree name]
    · have hnext := @publications_patch setup tag module session (hfree module)
      omega
    · exact (hclear.2 other ho number hn path hp).congr hsame

/-- Where a session stands after the runs of some modules: their pairs are what each run leaves alone, the
files of all other modules are as at the start, and no module is locked. -/
structure Settled (setup : SessionSetup) (folder : Path) (own : String → Nat → String) (start : Session)
    (done : List String) (session : Session) : Prop where
  plain : ∀ module ∈ done, '/' ∉ module.toList
  finished : ∀ module ∈ done, ∀ path ∈ pair setup folder module, session.host.disk.held path =
    (patch setup (own module) module start).2.host.disk.held path
  untouched : ∀ module, '/' ∉ module.toList → module ∉ done → ∀ path ∈ pair setup folder module,
    session.host.disk.held path = start.host.disk.held path
  free : ∀ name, session.locks.isLocked name = false

/-- What is required of a session so that its runs do not meet. -/
structure Separate (setup : SessionSetup) (folder : Path) (tag : Nat → String) (own : String → Nat → String) :
    Prop where
  folder : setup.outputFolder = some folder
  extensions : setup.context.config.extensions.Plain
  tag : ∀ number, IsTag (tag number)
  own : ∀ module number, IsTag (own module number)

variable (hs : Separate setup folder tag own) (hstart : ∀ name, start.locks.isLocked name = false)

include hs hstart

/-- One more run ends as it would end alone, and leaves the files of other modules as they are. -/
theorem Settled.patch (h : Settled setup folder own start done session) (hm : '/' ∉ module.toList)
    (hnew : module ∉ done) (hc : ∀ call ∈ calls setup tag module session, call.succeeded)
    (halone : ∀ call ∈ calls setup (own module) module start, call.succeeded) :
    (Session.patch setup tag module session).1 = (Session.patch setup (own module) module start).1 ∧
      Settled setup folder own start (module :: done) (Session.patch setup tag module session).2 := by
  obtain ⟨hanswer, hpair⟩ := patch_alike hs.folder hs.extensions hs.tag (hs.own module) hm (h.free module)
    (hstart module) hc halone (h.untouched module hm hnew)
  have hother : ∀ {other : String}, '/' ∉ other.toList → other ≠ module → ∀ path ∈ pair setup folder other,
      (Session.patch setup tag module session).2.host.disk.held path = session.host.disk.held path :=
    fun ho hne path hp => held_patch_ne hs.folder hs.extensions hs.tag hm ho hne (h.free module) hp
  refine ⟨hanswer, List.forall_mem_cons.mpr ⟨hm, h.plain⟩, List.forall_mem_cons.mpr ⟨hpair, ?_⟩, ?_, fun name => ?_⟩
  · intro other hd path hp
    rw [hother (h.plain other hd) (fun he => hnew (he ▸ hd)) path hp, h.finished other hd path hp]
  · intro other ho hd path hp
    rw [List.mem_cons, not_or] at hd
    rw [hother ho hd.1 path hp, h.untouched other ho hd.2 path hp]
  · rw [locks_patch, h.free name]

theorem Settled.patchAll {order : List String} (h : Settled setup folder own start done session)
    (hplain : ∀ module ∈ order, '/' ∉ module.toList) (hnd : order.Nodup) (hnew : ∀ module ∈ order, module ∉ done)
    (hc : ∀ call ∈ callsAll setup tag order session, call.succeeded)
    (halone : ∀ module ∈ order, ∀ call ∈ calls setup (own module) module start, call.succeeded) :
    (Session.patchAll setup tag order session).1 =
        order.map (fun module => (module, (Session.patch setup (own module) module start).1)) ∧
      Settled setup folder own start (order.reverse ++ done) (Session.patchAll setup tag order session).2 := by
  induction order generalizing session done with
  | nil => exact ⟨rfl, h⟩
  | cons module order ih =>
    rw [List.forall_mem_cons] at hplain hnew halone
    rw [callsAll, List.forall_mem_append] at hc
    obtain ⟨hnot, hnd⟩ := List.nodup_cons.mp hnd
    obtain ⟨hanswer, hnext⟩ := h.patch hs hstart hplain.1 hnew.1 hc.1 halone.1
    have hfresh : ∀ other ∈ order, other ∉ module :: done := by
      intro other ho hd
      rcases List.mem_cons.mp hd with rfl | hd
      · exact hnot ho
      · exact hnew.2 other ho hd
    obtain ⟨hrest, hend⟩ := ih hnext hplain.2 hnd hfresh hc.2 halone.2
    rw [patchAll_cons]
    refine ⟨?_, ?_⟩
    · rw [List.map_cons, ← hrest, hanswer]
    · rwa [List.reverse_cons, List.append_assoc, List.singleton_append]

omit hs hstart

/-- Runs in some order that end as each of them ends alone: with the same answer and the same pair of files.
No run touches the pair of another module, and in the end no module is locked. -/
structure Independent (setup : SessionSetup) (folder : Path) (tag : Nat → String) (own : String → Nat → String)
    (order : List String) (start : Session) : Prop where
  answers : (patchAll setup tag order start).1 =
    order.map fun module => (module, (patch setup (own module) module start).1)
  contents : ∀ module ∈ order, ∀ path ∈ pair setup folder module,
    (patchAll setup tag order start).2.host.disk.held path =
      (patch setup (own module) module start).2.host.disk.held path
  spared : ∀ before module after, order = before ++ module :: after → ∀ other ∈ order, other ≠ module →
    ∀ path ∈ pair setup folder other,
      (∀ call ∈ calls setup tag module (patchAll setup tag before start).2,
        ∀ file ∈ call.paths, file.location ≠ path.location) ∧
      ∀ host ∈ passed setup tag module (patchAll setup tag before start).2,
        host.disk.held path = (patchAll setup tag before start).2.host.disk.held path
  free : ∀ name, (patchAll setup tag order start).2.locks.isLocked name = false

/-- Whatever the order in which a session patches different modules: if no file operation fails, no run
influences another. -/
theorem patchAll_independent {modules order : List String} (hfolder : setup.outputFolder = some folder)
    (hextensions : setup.context.config.extensions.Plain) (htag : ∀ number, IsTag (tag number))
    (hown : ∀ module number, IsTag (own module number)) (hplain : ∀ module ∈ modules, '/' ∉ module.toList)
    (hnodup : modules.Nodup) (horder : order.Perm modules) (hfree : ∀ name, start.locks.isLocked name = false)
    (hc : ∀ call ∈ callsAll setup tag order start, call.succeeded)
    (halone : ∀ module ∈ modules, ∀ call ∈ calls setup (own module) module start, call.succeeded) :
    Independent setup folder tag own order start := by
  have hs : Separate setup folder tag own := ⟨hfolder, hextensions, htag, hown⟩
  have hmem : ∀ module ∈ order, '/' ∉ module.toList := fun module hm => hplain module (horder.mem_iff.mp hm)
  have hstart : Settled setup folder own start [] start :=
    ⟨List.forall_mem_nil _, List.forall_mem_nil _, fun _ _ _ _ _ => rfl, hfree⟩
  obtain ⟨hanswers, hend⟩ := hstart.patchAll hs hfree hmem (horder.nodup_iff.mpr hnodup)
    (fun _ _ => List.not_mem_nil) hc fun module hm => halone module (horder.mem_iff.mp hm)
  refine ⟨hanswers, fun module hm => hend.finished module (by simpa using hm), ?_, hend.free⟩
  rintro before module after rfl other ho hne path hp
  exact run_spares hfolder hextensions htag (hmem module (by simp)) (hmem other ho) hne _ hp

/-- The temporary names of a process carry its number and that of the publication. -/
def processTag (process number : Nat) : String := toString process ++ "-" ++ toString number

theorem isTag_processTag (process number : Nat) : IsTag (processTag process number) := by
  have hdigits : ∀ n : Nat, ∀ c ∈ (toString n).toList, c.isDigit := by
    intro n c hc
    rw [toString_toList] at hc
    exact Nat.isDigit_of_mem_toDigits (by omega) (by omega) hc
  intro c hc
  rw [processTag, String.toList_append, String.toList_append, List.mem_append, List.mem_append] at hc
  rcases hc with (hc | hc) | hc
  · exact .inl (hdigits process c hc)
  · exact .inr (List.mem_singleton.mp hc)
  · exact .inl (hdigits number c hc)

/-- A session that publishes every module, one of them in place of a previous pair. -/
def sharedSetup : SessionSetup where
  context := ⟨Sample.config, Sample.support⟩
  collaborators := Sample.collaborators
  outputFolder := some ⟨"./out"⟩

def sharedStart : Session where
  host := { disk := ⟨[(["out"], .folder), (["out", "Game_patch.dll"], .file [1]),
    (["out", "Game_patch.pdb"], .file [2])]⟩ }

theorem patchAll_independent_shared :
    (publication? sharedSetup "Game").isSome ∧ (publication? sharedSetup "Menu").isSome ∧
      Independent sharedSetup ⟨"./out"⟩ (processTag 7) (fun _ => processTag 8) ["Menu", "Game"] sharedStart := by
  have hfree : ∀ name, sharedStart.locks.isLocked name = false := fun _ => rfl
  have hplain : ∀ module ∈ ["Game", "Menu"], '/' ∉ module.toList := by decide
  have hx : sharedSetup.context.config.extensions.Plain := by decide
  have hclear : ∀ module ∈ ["Menu", "Game"], ∀ number < 2,
      ∀ path ∈ attemptArea (sharedSetup.context.config.extensions.paths
        (destination sharedSetup ⟨"./out"⟩ module)) (processTag 7 number),
        sharedStart.host.disk.Clear path := by decide +kernel
  have halone : ∀ module ∈ ["Game", "Menu"],
      ∀ path ∈ attemptArea (sharedSetup.context.config.extensions.paths
        (destination sharedSetup ⟨"./out"⟩ module)) (processTag 8 0),
        sharedStart.host.disk.Clear path := by decide +kernel
  refine ⟨by decide +kernel, by decide +kernel, patchAll_independent rfl hx (isTag_processTag 7)
    (fun _ => isTag_processTag 8) hplain (by decide) (List.Perm.swap "Game" "Menu" []) hfree ?_ fun module hm => ?_⟩
  · exact callsAll_succeed rfl hx (isTag_processTag 7) (by decide) hfree (Nat.le_refl 2) hclear
  · exact (calls_succeed rfl hx (isTag_processTag 8) (hplain module hm) (hfree module) (halone module hm)).1

end HotPatch.Session
