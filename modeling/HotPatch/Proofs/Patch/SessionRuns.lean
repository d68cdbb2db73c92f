import HotPatch.Patch.Session
import HotPatch.Proofs.Files.SharedFolder
import HotPatch.Proofs.Files.SmoothPublishing
import HotPatch.Proofs.Patch.PipelineHistory

/-!
# Runs of one session

The runs of a session share its host, its locks and the numbers that they take
for their temporary files. A pipeline sees none of these, and a publication works
on six files that no other module is published to. So a run ends as it would end
alone, whatever was patched before.
-/

namespace HotPatch.Session

open Publish (attemptArea)

/-- A part of temporary names that no file of a pair ends in: digits and dashes. -/
def IsTag (text : String) : Prop := ∀ c ∈ text.toList, c.isDigit ∨ c = '-'

/-- The paths of the image and the symbols of a module. -/
def pair (setup : SessionSetup) (folder : Path) (module : String) : List Path :=
  let paths := setup.context.config.extensions.paths (destination setup folder module)
  [paths.image, paths.symbols]

section Names

variable {setup : SessionSetup} {folder look path : Path} {module other tag : String}

theorem destination_standsIn (hx : setup.context.config.extensions.Plain) (hm : '/' ∉ module.toList) :
    (destination setup folder module).StandsIn folder.location
      (module ++ "_patch" ++ "." ++ setup.context.config.extensions.image) := by
  have hname : module ++ "_patch." ++ setup.context.config.extensions.image =
      module ++ "_patch" ++ "." ++ setup.context.config.extensions.image := by
    rw [show "_patch." = "_patch" ++ "." from rfl, ← String.append_assoc]
  rw [destination, hname]
  apply Path.standsIn_join
  · exact Path.isFileName_append (by simp) hx.nonempty.1
  · simp [hm, hx.slash.1]

theorem attempt_standIn (hx : setup.context.config.extensions.Plain) (hm : '/' ∉ module.toList) (ht : IsTag tag) :
    List.Forall₂ (fun path name => path.StandsIn folder.location name)
      (attemptArea (setup.context.config.extensions.paths (destination setup folder module)) tag)
      (Publish.attemptNames setup.context.config.extensions (module ++ "_patch") tag) := by
  apply Publish.attemptArea_standIn hx _ _ _ (destination_standsIn hx hm)
  · simp
  · intro h
    have hlength := congrArg (·.toList.length) h
    simp at hlength
  · intro hslash
    rcases ht _ hslash with h | h <;> exact absurd h (by decide)

/-- No temporary stem of a module is the stem of another module. -/
theorem stem_notMem (hne : other ≠ module) (ht : IsTag tag) :
    other ++ "_patch" ∉ Publish.stems (module ++ "_patch") tag := by
  have htemp : ∀ before : String, other ++ "_patch" ≠ before ++ "-" ++ tag := by
    intro before h
    have hh : (other ++ "_patch").toList.getLast? = some 'h' := by simp
    have hd : (before ++ "-" ++ tag).toList = before.toList ++ '-' :: tag.toList := by simp
    rw [h, hd, List.getLast?_append_cons] at hh
    rcases List.mem_cons.mp (List.mem_of_getLast? hh) with h | h
    · exact absurd h (by decide)
    · rcases ht _ h with h | h <;> exact absurd h (by decide)
  simp only [Publish.stems, List.mem_cons, List.not_mem_nil, or_false, not_or]
  exact ⟨fun h => hne (by simpa using h), htemp _, htemp _⟩

/-- The files of a pair stand at other places than those that the run of another module works on. -/
theorem pair_apart (hx : setup.context.config.extensions.Plain) (hm : '/' ∉ module.toList)
    (ho : '/' ∉ other.toList) (hne : other ≠ module) (ht : IsTag tag) (hl : look ∈ pair setup folder other)
    (hp : path ∈ attemptArea (setup.context.config.extensions.paths (destination setup folder module)) tag) :
    path.NamesFile ∧ look.location ≠ path.location := by
  have harea := @attempt_standIn setup folder module tag hx hm ht
  refine ⟨Path.namesFile_of_standsIn harea path hp, fun he => ?_⟩
  obtain ⟨extension, hdot, hlook⟩ : ∃ extension : String, '.' ∉ extension.toList ∧
      look.location = folder.location ++ [other ++ "_patch" ++ "." ++ extension] := by
    have hother := @attempt_standIn setup folder other tag hx ho ht
    rcases hother with _ | ⟨hi, _ | ⟨hs, -⟩⟩
    rcases List.mem_pair.mp hl with rfl | rfl
    · exact ⟨_, hx.dot.1, hi.location⟩
    · exact ⟨_, hx.dot.2, hs.location⟩
  have hmem := List.mem_map_of_mem (f := Path.location) hp
  rw [Path.map_location harea, ← he, hlook] at hmem
  obtain ⟨name, hn, hname⟩ := List.mem_map.mp hmem
  obtain ⟨⟨stem, last⟩, hpair, rfl⟩ := List.mem_map.mp hn
  obtain ⟨hstem, hlast⟩ := List.pair_mem_product.mp hpair
  have hdot' : '.' ∉ last.toList := by
    rcases List.mem_pair.mp hlast with rfl | rfl
    · exact hx.dot.1
    · exact hx.dot.2
  have heq : stem ++ "." ++ last = other ++ "_patch" ++ "." ++ extension := by simpa using hname
  exact stem_notMem hne ht ((append_separator_inj hdot' hdot heq).1 ▸ hstem)

end Names

section Runs

variable (setup : SessionSetup) (tag : Nat → String)

/-- What a run publishes, if it comes that far, and where. -/
def publication? (module : String) : Option (Path × Image.Written) :=
  match setup.outputFolder, (Pipeline.create module).run setup.context setup.collaborators with
  | some folder, (.ok true, pipeline) =>
    pipeline.write.toOption.map fun written => (destination setup folder pipeline.name, written)
  | _, _ => none

/-- The file operations that a run asks for, with their outcomes. -/
def calls (module : String) (session : Session) : List Call :=
  match publication? setup module with
  | some (destination, written) =>
    Publish.calls setup.context.config.extensions destination written (tag session.publications) session.host
  | none => []

/-- The hosts that a run passes through. -/
def passed (module : String) (session : Session) : List Host :=
  match publication? setup module with
  | some (destination, written) =>
    Publish.passed Host.fileSystem setup.context.config.extensions destination written (tag session.publications)
      session.host
  | none => [session.host]

variable {setup} {tag} {folder : Path} {module : String}

theorem publish_of_written {σ : Type} {pipeline : Pipeline} {written : Image.Written}
    (h : pipeline.write = .ok written) (context : PatchContext) (fs : FileSystem σ) (destination : Path)
    (tag : String) : pipeline.publish context fs destination tag =
      Publish.publish fs context.config.extensions destination written tag := by
  unfold Pipeline.publish
  rw [h]

theorem publish_of_unwritten {σ : Type} {pipeline : Pipeline} {error : Error} (h : pipeline.write = .error error)
    (context : PatchContext) (fs : FileSystem σ) (destination : Path) (tag : String) :
    pipeline.publish context fs destination tag = pure (.error error) := by
  unfold Pipeline.publish
  rw [h]

theorem publication?_eq_some {target : Path} {written : Image.Written} (hfolder : setup.outputFolder = some folder)
    (h : publication? setup module = some (target, written)) : target = destination setup folder module ∧
      ∃ pipeline, (Pipeline.create module).run setup.context setup.collaborators = (.ok true, pipeline) ∧
        pipeline.name = module ∧ pipeline.write = .ok written := by
  have hend := Pipeline.run_end setup.context setup.collaborators (Pipeline.create module)
  rw [publication?, hfolder] at h
  rcases hrun : (Pipeline.create module).run setup.context setup.collaborators with ⟨error | - | -, pipeline⟩ <;>
    rw [hrun] at h hend <;> dsimp only at h hend
  · cases h
  · cases h
  · rcases hend with _ | _ | _ | _ | ⟨-, -, hfinished⟩
    have hname : pipeline.name = module := hfinished.name
    rcases hw : pipeline.write with error | bytes <;> rw [hw] at h <;> cases h
    exact ⟨by rw [hname], pipeline, rfl, hname, hw⟩

/-- A run that publishes changes the host as its publication does, and answers what that answers. -/
theorem patchLocked_of_publication {target : Path} {written : Image.Written}
    (hfolder : setup.outputFolder = some folder) (h : publication? setup module = some (target, written)) :
    ∃ report : Report, ∀ (tag : Nat → String) (session : Session),
      patchLocked setup tag module session =
        ((Publish.publish Host.fileSystem setup.context.config.extensions target written
            (tag session.publications) session.host).1.map fun paths => some ⟨report, some paths⟩,
          { session with
            host := (Publish.publish Host.fileSystem setup.context.config.extensions target written
              (tag session.publications) session.host).2
            publications := session.publications + 1 }) := by
  obtain ⟨rfl, pipeline, hrun, hname, hw⟩ := publication?_eq_some hfolder h
  refine ⟨pipeline.report, fun tag session => ?_⟩
  rw [patchLocked, hrun]
  dsimp only
  rw [publish, hfolder, hname]
  dsimp only
  rw [publish_of_written hw]
  rcases Publish.publish Host.fileSystem setup.context.config.extensions (destination setup folder module) written
    (tag session.publications) session.host with ⟨error | paths, host⟩ <;> rfl

/-- A run that publishes nothing answers the same in every session and leaves the files alone. -/
theorem patchLocked_of_none (hfolder : setup.outputFolder = some folder) (h : publication? setup module = none) :
    ∃ answer, ∀ (tag : Nat → String) (session : Session), (patchLocked setup tag module session).1 = answer ∧
      (patchLocked setup tag module session).2.host = session.host ∧
      (patchLocked setup tag module session).2.locks = session.locks := by
  rw [publication?, hfolder] at h
  rcases hrun : (Pipeline.create module).run setup.context setup.collaborators with ⟨error | - | -, pipeline⟩ <;>
    rw [hrun] at h <;> dsimp only at h
  · refine ⟨.error error, fun tag session => ?_⟩
    rw [patchLocked, hrun]
    exact ⟨rfl, rfl, rfl⟩
  · refine ⟨.ok none, fun tag session => ?_⟩
    rw [patchLocked, hrun]
    exact ⟨rfl, rfl, rfl⟩
  · rcases hw : pipeline.write with error | bytes <;> rw [hw] at h
    · refine ⟨.error error, fun tag session => ?_⟩
      rw [patchLocked, hrun]
      dsimp only
      rw [publish, hfolder]
      dsimp only
      rw [publish_of_unwritten hw]
      exact ⟨rfl, rfl, rfl⟩
    · cases h

variable {session session' : Session} {tag' : Nat → String}

/-- A run of a module that is not being patched holds the lock and releases it. -/
theorem patch_eq (hfree : session.locks.isLocked module = false) : patch setup tag module session =
    ((patchLocked setup tag module { session with locks := ⟨module :: session.locks.names⟩ }).1,
      { (patchLocked setup tag module { session with locks := ⟨module :: session.locks.names⟩ }).2 with
        locks := (patchLocked setup tag module
          { session with locks := ⟨module :: session.locks.names⟩ }).2.locks.release module }) := by
  rw [patch, LockTable.acquire, hfree]
  rfl

/-- A run that publishes answers what its publication answers and leads to the same host. -/
theorem patch_of_publication {target : Path} {written : Image.Written}
    (hfolder : setup.outputFolder = some folder) (h : publication? setup module = some (target, written)) :
    ∃ report : Report, ∀ (tag : Nat → String) (session : Session), session.locks.isLocked module = false →
      (patch setup tag module session).1 =
        (Publish.publish Host.fileSystem setup.context.config.extensions target written
          (tag session.publications) session.host).1.map (fun paths => some ⟨report, some paths⟩) ∧
      (patch setup tag module session).2.host =
        (Publish.publish Host.fileSystem setup.context.config.extensions target written
          (tag session.publications) session.host).2 := by
  obtain ⟨report, hrun⟩ := patchLocked_of_publication hfolder h
  refine ⟨report, fun tag session hfree => ?_⟩
  rw [patch_eq hfree, hrun]
  dsimp only
  exact ⟨rfl, rfl⟩

theorem patch_of_none (hfolder : setup.outputFolder = some folder) (h : publication? setup module = none) :
    ∃ answer, ∀ (tag : Nat → String) (session : Session), session.locks.isLocked module = false →
      (patch setup tag module session).1 = answer ∧ (patch setup tag module session).2.host = session.host := by
  obtain ⟨answer, hrun⟩ := patchLocked_of_none hfolder h
  refine ⟨answer, fun tag session hfree => ?_⟩
  rw [patch_eq hfree]
  exact ⟨(hrun tag _).1, (hrun tag _).2.1⟩

/-- A pipeline and its publication leave the locks alone. -/
theorem locks_patchLocked (session : Session) :
    (patchLocked setup tag module session).2.locks = session.locks := by
  rw [patchLocked]
  rcases (Pipeline.create module).run setup.context setup.collaborators with ⟨error | - | -, pipeline⟩
  · rfl
  · rfl
  · unfold publish
    rcases setup.outputFolder with - | folder
    · rfl
    · rfl

/-- A module that is being patched is not patched again meanwhile. -/
theorem patch_of_isLocked (hlocked : session.locks.isLocked module = true) :
    patch setup tag module session = (.error (.moduleBusy module), session) := by
  rw [patch, LockTable.acquire, if_pos hlocked]

/-- However a run ends, the same modules are locked as before. -/
theorem locks_patch (session : Session) : (patch setup tag module session).2.locks = session.locks := by
  rcases hlocked : session.locks.isLocked module with - | -
  · rw [patch_eq hlocked]
    dsimp only
    rw [locks_patchLocked, LockTable.release_cons hlocked]
  · rw [patch_of_isLocked hlocked]

/-- The hosts that a run passes through lead to the one that it ends in. -/
theorem getLast?_passed (hfolder : setup.outputFolder = some folder)
    (hfree : session.locks.isLocked module = false) :
    (passed setup tag module session).getLast? = some (patch setup tag module session).2.host := by
  rw [passed]
  rcases h : publication? setup module with - | ⟨target, written⟩
  · obtain ⟨answer, hrun⟩ := patch_of_none hfolder h
    rw [(hrun tag session hfree).2]
    rfl
  · obtain ⟨report, hrun⟩ := patch_of_publication hfolder h
    rw [(hrun tag session hfree).2]
    exact (Publish.passed_ends _ _ _ _ _ _).2

section Independence

variable {other : String}

/-- No call of a run goes to the place of a file that another module is published to, and what these files
hold is the same in every state on the way. -/
theorem run_spares (hfolder : setup.outputFolder = some folder) (hx : setup.context.config.extensions.Plain)
    (ht : ∀ number, IsTag (tag number)) (hm : '/' ∉ module.toList) (ho : '/' ∉ other.toList)
    (hne : other ≠ module) (session : Session) {path : Path} (hp : path ∈ pair setup folder other) :
    (∀ call ∈ calls setup tag module session, ∀ file ∈ call.paths, file.location ≠ path.location) ∧
      ∀ host ∈ passed setup tag module session, host.disk.held path = session.host.disk.held path := by
  rw [calls, passed]
  rcases h : publication? setup module with - | ⟨target, written⟩
  · exact ⟨List.forall_mem_nil _, List.forall_mem_singleton.mpr rfl⟩
  · obtain ⟨rfl, -⟩ := publication?_eq_some hfolder h
    have hapart := fun {file} => @pair_apart setup folder path file module other _ hx hm ho hne
      (ht session.publications) hp
    refine ⟨fun call hc file hf => ?_, Publish.passed_held (fun file hf => hapart hf) written⟩
    exact (hapart ((Publish.publish_records _ _ _ _ _).2.2 call hc file hf)).2.symm

theorem held_patch_ne (hfolder : setup.outputFolder = some folder) (hx : setup.context.config.extensions.Plain)
    (ht : ∀ number, IsTag (tag number)) (hm : '/' ∉ module.toList) (ho : '/' ∉ other.toList)
    (hne : other ≠ module) (hfree : session.locks.isLocked module = false) {path : Path}
    (hp : path ∈ pair setup folder other) :
    (patch setup tag module session).2.host.disk.held path = session.host.disk.held path :=
  (run_spares hfolder hx ht hm ho hne session hp).2 _ (List.mem_of_getLast? (getLast?_passed hfolder hfree))

/-- If no call fails, a publication installs the pair at the paths that it answers. -/
theorem publish_written (hx : setup.context.config.extensions.Plain) {tag : String} (ht : IsTag tag)
    (hm : '/' ∉ module.toList) {written : Image.Written} {host : Host}
    (hc : ∀ call ∈ Publish.calls setup.context.config.extensions (destination setup folder module) written tag host,
      call.succeeded) :
    let paths := setup.context.config.extensions.paths (destination setup folder module)
    ∃ host', Publish.publish Host.fileSystem setup.context.config.extensions (destination setup folder module)
        written tag host = (.ok paths, host') ∧
      host'.disk.held paths.image = some written.image ∧ host'.disk.held paths.symbols = some written.symbols := by
  obtain ⟨hnd, hapart⟩ := Path.Apart.of_standsIn (@attempt_standIn setup folder module tag hx hm ht)
    (Publish.attemptNames_nodup hx)
  have hok := Publish.publish_of_succeeded (Extensions.check_eq_ok.mpr hx.slash) hc
  rcases hr : Publish.publish Host.fileSystem setup.context.config.extensions (destination setup folder module)
    written tag host with ⟨result, host'⟩
  rw [hr] at hok
  dsimp only at hok
  subst hok
  obtain ⟨-, hi, hs, -⟩ := Publish.publish_installs (Host.lawful_of_apart hapart) rfl hnd hr
  exact ⟨host', rfl, hi, hs⟩

/-- A run ends alike in two sessions whose files for the module hold the same. -/
theorem patch_alike (hfolder : setup.outputFolder = some folder) (hx : setup.context.config.extensions.Plain)
    (ht : ∀ number, IsTag (tag number)) (ht' : ∀ number, IsTag (tag' number)) (hm : '/' ∉ module.toList)
    (hfree : session.locks.isLocked module = false) (hfree' : session'.locks.isLocked module = false)
    (hc : ∀ call ∈ calls setup tag module session, call.succeeded)
    (hc' : ∀ call ∈ calls setup tag' module session', call.succeeded)
    (hheld : ∀ path ∈ pair setup folder module, session.host.disk.held path = session'.host.disk.held path) :
    (patch setup tag module session).1 = (patch setup tag' module session').1 ∧
      ∀ path ∈ pair setup folder module, (patch setup tag module session).2.host.disk.held path =
        (patch setup tag' module session').2.host.disk.held path := by
  rw [calls] at hc hc'
  rcases h : publication? setup module with - | ⟨target, written⟩
  · obtain ⟨answer, hrun⟩ := patch_of_none hfolder h
    obtain ⟨ha, hh⟩ := hrun tag session hfree
    obtain ⟨ha', hh'⟩ := hrun tag' session' hfree'
    rw [ha, ha', hh, hh']
    exact ⟨rfl, hheld⟩
  · obtain ⟨rfl, -⟩ := publication?_eq_some hfolder h
    rw [h] at hc hc'
    obtain ⟨report, hrun⟩ := patch_of_publication hfolder h
    obtain ⟨ha, hh⟩ := hrun tag session hfree
    obtain ⟨ha', hh'⟩ := hrun tag' session' hfree'
    obtain ⟨host, hr, hi, hs⟩ := publish_written hx (ht _) hm hc
    obtain ⟨host', hr', hi', hs'⟩ := publish_written hx (ht' _) hm hc'
    rw [ha, ha', hh, hh', hr, hr']
    refine ⟨rfl, fun path hp => ?_⟩
    rcases List.mem_pair.mp hp with rfl | rfl
    · exact hi.trans hi'.symm
    · exact hs.trans hs'.symm

end Independence

/-- Each run takes one number at most. -/
theorem publications_patch (hfree : session.locks.isLocked module = false) :
    (patch setup tag module session).2.publications ≤ session.publications + 1 := by
  rw [patch_eq hfree]
  dsimp only
  rw [patchLocked]
  rcases (Pipeline.create module).run setup.context setup.collaborators with ⟨error | - | -, pipeline⟩
  · exact Nat.le_succ _
  · exact Nat.le_succ _
  · unfold publish
    rcases setup.outputFolder with - | folder
    · exact Nat.le_succ _
    · exact Nat.le_refl _

/-- A run in whose way nothing stands makes no call that fails, and leaves the folders as they are. -/
theorem calls_succeed (hfolder : setup.outputFolder = some folder) (hx : setup.context.config.extensions.Plain)
    (ht : ∀ number, IsTag (tag number)) (hm : '/' ∉ module.toList)
    (hfree : session.locks.isLocked module = false)
    (hclear : ∀ path ∈ attemptArea (setup.context.config.extensions.paths (destination setup folder module))
      (tag session.publications), session.host.disk.Clear path) :
    (∀ call ∈ calls setup tag module session, call.succeeded) ∧
      Disk.SameFolders session.host.disk (patch setup tag module session).2.host.disk := by
  rw [calls]
  rcases h : publication? setup module with - | ⟨target, written⟩
  · obtain ⟨answer, hrun⟩ := patch_of_none hfolder h
    rw [(hrun tag session hfree).2]
    exact ⟨List.forall_mem_nil _, fun _ => Iff.rfl⟩
  · obtain ⟨rfl, -⟩ := publication?_eq_some hfolder h
    obtain ⟨report, hrun⟩ := patch_of_publication hfolder h
    rw [(hrun tag session hfree).2]
    obtain ⟨hnd, hapart⟩ := Path.Apart.of_standsIn (@attempt_standIn setup folder module _ hx hm
      (ht session.publications)) (Publish.attemptNames_nodup hx)
    exact Publish.calls_succeed hapart hnd hclear written

end Runs
end HotPatch.Session
