import HotPatch.Proofs.Patch.SessionOrder

/-!
# The names of published files

A session names the image of a module after the module and the extension of
images, and publishing puts either extension in the place of what stands behind
the last dot of that name. So the dots of a module's name and those of the
extension of symbols change nothing. An extension of images that has a dot in it
leaves its front part in the names of both files.
-/

namespace HotPatch

namespace Path

variable {folder : Path} {name extension : String}

/-- The parts between separators, each with a separator behind it, are the text with one behind it. -/
theorem flatMap_cut (separator : Char) (text : List Char) :
    (cut separator text).flatMap (· ++ [separator]) = text ++ [separator] := by
  induction text with
  | nil => rfl
  | cons c rest ih =>
    rw [cut]
    rcases hc : cut separator rest with - | ⟨part, parts⟩ <;> rw [hc] at ih
    · exact absurd ih.symm (by simp)
    · dsimp only
      rw [List.cons_append, ← ih]
      split_ifs with hs
      · rw [hs, List.flatMap_cons]
        rfl
      · rfl

theorem front_names (text : String) : front (Path.mk text).names = text ++ "/" := by
  have hjoin : ∀ parts : List (List Char),
      (front (parts.map String.ofList)).toList = parts.flatMap (· ++ ['/']) := by
    intro parts
    simp [front, String.toList_join, List.flatMap_def, Function.comp_def]
  rw [← String.toList_inj, names, hjoin, flatMap_cut, String.toList_append]
  rfl

/-- Replacing the extension of a file in a folder changes its name alone. -/
theorem withExtension_join (hf : IsFileName name) (hs : '/' ∉ name.toList) (he : '/' ∉ extension.toList) :
    (folder.join ⟨name⟩).withExtension extension = folder.join ⟨extended name extension⟩ := by
  obtain ⟨before, hbefore, hjoin⟩ := join_eq_append folder
  rw [hjoin name hs, hjoin _ (notMem_extended hs he)]
  rcases hbefore with ⟨rfl, -⟩ | ⟨text, rfl, -⟩
  · rw [String.empty_append, String.empty_append]
    have hn : (Path.mk name).names = [] ++ [name] := names_of_notMem hs
    exact withExtension_of_names hn hf extension
  · rw [withExtension_of_names (names_append hs) hf, front_names]

theorem join_inj {other : String} (hs : '/' ∉ name.toList) (ho : '/' ∉ other.toList)
    (h : folder.join ⟨name⟩ = folder.join ⟨other⟩) : name = other := by
  obtain ⟨before, -, hjoin⟩ := join_eq_append folder
  rw [hjoin name hs, hjoin other ho, Path.mk.injEq] at h
  exact String.append_right_inj before |>.mp h

/-- A longer name than the dots of a folder names a file. -/
theorem isFileName_of_length (h : 3 ≤ name.toList.length) : IsFileName name := by
  refine ⟨?_, ?_, ?_⟩ <;> rintro rfl <;> exact absurd h (by decide)

theorem exists_last_dot {text : String} (h : '.' ∈ text.toList) :
    ∃ before after, text = before ++ "." ++ after ∧ '.' ∉ after.toList := by
  obtain ⟨after, before, hsplit, hafter⟩ := List.eq_append_cons_of_mem (List.mem_reverse.mpr h)
  refine ⟨String.ofList before.reverse, String.ofList after.reverse, ?_, by simpa using hafter⟩
  rw [← String.toList_inj, ← List.reverse_reverse text.toList, hsplit]
  simp

end Path

/-- Extensions that can stand in names of files. Both may have dots in them. -/
structure Extensions.Proper (extensions : Extensions) : Prop where
  nonempty : extensions.image ≠ "" ∧ extensions.symbols ≠ ""
  slash : '/' ∉ extensions.image.toList ∧ '/' ∉ extensions.symbols.toList

theorem Extensions.Proper.slash_split {extensions : Extensions} {before after : String} (hx : extensions.Proper)
    (himage : extensions.image = before ++ "." ++ after) : '/' ∉ before.toList ∧ '/' ∉ after.toList := by
  have hs := hx.slash.1
  rw [himage] at hs
  simpa using hs

namespace Publish

variable {σ : Type} {fs : FileSystem σ} {extensions : Extensions} {destination : Path} {written : Image.Written}
  {tag : String} {s s' : σ} {paths : PublishedPaths}

/-- A publication that succeeds answers the paths that the destination and the extensions make. -/
theorem eq_paths_of_publish (h : publish fs extensions destination written tag s = (.ok paths, s')) :
    paths = extensions.paths destination := by
  have hexchange := exchange_of_publish_ok h
  rw [exchange_eq] at hexchange
  rcases hr : replace fs (extensions.paths destination) written tag s with ⟨interruption | progress, s₁⟩ <;>
    rw [hr] at hexchange <;> cases hexchange
  rfl

end Publish

namespace Session

open Publish (attemptArea)

/-- The files of a folder that have this name in front of their extensions. -/
def namedPair (folder : Path) (stem : String) (extensions : Extensions) : PublishedPaths :=
  ⟨folder.join ⟨stem ++ "." ++ extensions.image⟩, folder.join ⟨stem ++ "." ++ extensions.symbols⟩⟩

section Names

variable {folder : Path} {stem other after tag : String} {extensions : Extensions}

/-- Publishing keeps what stands in front of the last dot of the destination. -/
theorem paths_join (hstem : 2 ≤ stem.toList.length) (hs : '/' ∉ stem.toList) (ha : '.' ∉ after.toList)
    (has : '/' ∉ after.toList) (hx : extensions.Proper) : extensions.paths (folder.join ⟨stem ++ "." ++ after⟩) = namedPair folder stem extensions := by
  have hf : Path.IsFileName (stem ++ "." ++ after) := by
    apply Path.isFileName_of_length
    simp only [String.toList_append, List.length_append, String.reduceToList, List.length_singleton]
    omega
  have hname : '/' ∉ (stem ++ "." ++ after).toList := by simp [hs, has]
  have hempty : stem ≠ "" := by
    rintro rfl
    exact absurd hstem (by decide)
  have hdot : stem ≠ "." := by
    rintro rfl
    exact absurd hstem (by decide)
  rw [Extensions.paths, Path.withExtension_join hf hname hx.slash.1, Path.withExtension_join hf hname hx.slash.2,
    Path.extended_append hempty hdot ha hx.nonempty.1, Path.extended_append hempty hdot ha hx.nonempty.2, namedPair]

theorem namedPair_image_inj (hs : '/' ∉ stem.toList) (ho : '/' ∉ other.toList) (hi : '/' ∉ extensions.image.toList)
    (h : (namedPair folder stem extensions).image = (namedPair folder other extensions).image) : stem = other := by
  have hname := Path.join_inj (by simp [hs, hi]) (by simp [ho, hi]) h
  rwa [String.append_left_inj, String.append_left_inj] at hname

theorem namedPair_symbols_inj (hs : '/' ∉ stem.toList) (ho : '/' ∉ other.toList)
    (hi : '/' ∉ extensions.symbols.toList)
    (h : (namedPair folder stem extensions).symbols = (namedPair folder other extensions).symbols) :
    stem = other := by
  have hname := Path.join_inj (by simp [hs, hi]) (by simp [ho, hi]) h
  rwa [String.append_left_inj, String.append_left_inj] at hname

/-- All files of an attempt at such a pair are files of the folder. -/
theorem attemptArea_namesFile (hstem : 2 ≤ stem.toList.length) (hs : '/' ∉ stem.toList)
    (hx : extensions.Proper) (ht : '/' ∉ tag.toList) :
    ∀ path ∈ attemptArea (namedPair folder stem extensions) tag, path.NamesFile := by
  have hfile : ∀ {extension : String}, '/' ∉ extension.toList →
      (folder.join ⟨stem ++ "." ++ extension⟩).StandsIn folder.location (stem ++ "." ++ extension) := by
    intro extension he
    refine Path.standsIn_join (Path.isFileName_of_length ?_) (by simp [hs, he])
    simp only [String.toList_append, List.length_append, String.reduceToList, List.length_singleton]
    omega
  have hsibling : ∀ {path : Path} {name purpose : String}, path.StandsIn folder.location name →
      '/' ∉ purpose.toList → 1 ≤ purpose.toList.length → (path.sibling purpose tag).NamesFile := by
    intro path name purpose hpath hp hlength
    refine (hpath.sibling hp ht (Path.isFileName_of_length ?_)).namesFile
    simp only [Path.siblingName, String.toList_append, List.length_append, String.reduceToList, List.length_singleton]
    omega
  have himage := hfile hx.slash.1
  have hsymbols := hfile hx.slash.2
  simp only [attemptArea, Publish.temporaries, Publish.pendings, Publish.backups, namedPair, List.map_cons,
    List.map_nil, List.cons_append, List.nil_append, List.forall_mem_cons, List.not_mem_nil, false_implies,
    implies_true, and_true]
  exact ⟨himage.namesFile, hsymbols.namesFile, hsibling himage (by decide) (by decide),
    hsibling hsymbols (by decide) (by decide), hsibling himage (by decide) (by decide),
    hsibling hsymbols (by decide) (by decide)⟩

end Names

section Destinations

theorem two_le_length_stem (module before : String) : 2 ≤ (module ++ "_patch." ++ before).toList.length := by
  simp only [String.toList_append, List.length_append, String.reduceToList, List.length_cons]
  omega

variable {setup : SessionSetup} {folder : Path} {module before after : String}
  (hm : '/' ∉ module.toList) (hx : setup.context.config.extensions.Proper)

include hm hx

theorem paths_of_plain (hdot : '.' ∉ setup.context.config.extensions.image.toList) :
    setup.context.config.extensions.paths (destination setup folder module) =
      namedPair folder (module ++ "_patch") setup.context.config.extensions := by
  have hname : module ++ "_patch." ++ setup.context.config.extensions.image =
      module ++ "_patch" ++ "." ++ setup.context.config.extensions.image := by
    rw [show "_patch." = "_patch" ++ "." from rfl, ← String.append_assoc]
  rw [destination, hname]
  exact paths_join (by simp) (by simp [hm]) hdot hx.slash.1 hx

theorem paths_of_dotted (himage : setup.context.config.extensions.image = before ++ "." ++ after)
    (hdot : '.' ∉ after.toList) :
    setup.context.config.extensions.paths (destination setup folder module) =
      namedPair folder (module ++ "_patch." ++ before) setup.context.config.extensions := by
  obtain ⟨hbefore, hafter⟩ := hx.slash_split himage
  have hname : module ++ "_patch." ++ setup.context.config.extensions.image =
      module ++ "_patch." ++ before ++ "." ++ after := by
    rw [himage]
    simp only [String.append_assoc]
  rw [destination, hname]
  exact paths_join (two_le_length_stem module before) (by simp [hm, hbefore]) hdot hafter hx

/-- The stem of a published pair is that of the module unless the extension of images has a dot in it. -/
theorem exists_stem : ∃ stem : String, 2 ≤ stem.toList.length ∧ '/' ∉ stem.toList ∧
    setup.context.config.extensions.paths (destination setup folder module) =
      namedPair folder stem setup.context.config.extensions ∧
    (stem = module ++ "_patch" ↔ '.' ∉ setup.context.config.extensions.image.toList) := by
  by_cases hdot : '.' ∈ setup.context.config.extensions.image.toList
  · obtain ⟨before, after, himage, hafter⟩ := Path.exists_last_dot hdot
    obtain ⟨hbefore, -⟩ := hx.slash_split himage
    refine ⟨module ++ "_patch." ++ before, two_le_length_stem module before, by simp [hm, hbefore],
      paths_of_dotted hm hx himage hafter, iff_of_false (fun he => ?_) (not_not_intro hdot)⟩
    have hlength := congrArg (·.toList.length) he
    simp only [String.toList_append, List.length_append, String.reduceToList, List.length_cons,
      List.length_nil] at hlength
    omega
  · exact ⟨module ++ "_patch", by simp, by simp [hm], paths_of_plain hm hx hdot, iff_of_true rfl hdot⟩

end Destinations

section Runs

variable {setup : SessionSetup} {tag : Nat → String} {folder : Path} {module : String} {session : Session}
  {outcome : PatchOutcome}

/-- A run that answers an outcome has published what it wrote, at the paths that it answers. -/
theorem publish_of_patch (hfolder : setup.outputFolder = some folder)
    (h : (patch setup tag module session).1 = .ok (some outcome)) :
    let destination := destination setup folder module
    let extensions := setup.context.config.extensions
    outcome.published = some (extensions.paths destination) ∧ ∃ written,
      publication? setup module = some (destination, written) ∧
      Publish.publish Host.fileSystem extensions destination written (tag session.publications) session.host =
        (.ok (extensions.paths destination), (patch setup tag module session).2.host) := by
  have hfree : session.locks.isLocked module = false := by
    rw [← Bool.not_eq_true]
    intro hlocked
    rw [patch_of_isLocked hlocked] at h
    cases h
  rcases hp : publication? setup module with - | ⟨target, written⟩
  · rw [publication?, hfolder] at hp
    rw [patch_eq hfree] at h
    dsimp only at h
    unfold patchLocked at h
    rcases hrun : (Pipeline.create module).run setup.context setup.collaborators with ⟨error | - | -, pipeline⟩ <;>
      rw [hrun] at h hp <;> dsimp only at h hp
    · cases h
    · cases h
    · rcases hw : pipeline.write with error | written <;> rw [hw] at hp
      · rw [publish, hfolder] at h
        dsimp only at h
        rw [publish_of_unwritten hw] at h
        cases h
      · cases hp
  · obtain ⟨rfl, -⟩ := publication?_eq_some hfolder hp
    obtain ⟨report, hrun⟩ := patch_of_publication hfolder hp
    obtain ⟨hanswer, hhost⟩ := hrun tag session hfree
    rw [h] at hanswer
    rcases hpublish : Publish.publish Host.fileSystem setup.context.config.extensions
      (destination setup folder module) written (tag session.publications) session.host with ⟨error | paths, host⟩ <;>
      rw [hpublish] at hanswer hhost
    · cases hanswer
    · cases hanswer
      obtain rfl := Publish.eq_paths_of_publish hpublish
      refine ⟨rfl, written, rfl, ?_⟩
      rw [hpublish, hhost]

/-- The pair of a module is named after the module and the extensions, however many dots the name of the
module and the extension of symbols have, exactly if the extension of images has none. Otherwise what stands in
front of the last dot of that extension is part of both names. In any case the pair that was written is found
there, unless two files of the attempt share a place. -/
theorem patch_published_names (hfolder : setup.outputFolder = some folder) (hm : '/' ∉ module.toList)
    (hx : setup.context.config.extensions.Proper)
    (h : (patch setup tag module session).1 = .ok (some outcome)) :
    let extensions := setup.context.config.extensions
    let documented := namedPair folder (module ++ "_patch") extensions
    ∃ paths, outcome.published = some paths ∧
      (paths.image = documented.image ↔ '.' ∉ extensions.image.toList) ∧
      (paths.symbols = documented.symbols ↔ '.' ∉ extensions.image.toList) ∧
      (∀ before after, extensions.image = before ++ "." ++ after → '.' ∉ after.toList →
        paths = namedPair folder (module ++ "_patch." ++ before) extensions) ∧
      ('/' ∉ (tag session.publications).toList →
        ((attemptArea paths (tag session.publications)).map Path.location).Nodup →
          ∃ written, publication? setup module = some (destination setup folder module, written) ∧
            (patch setup tag module session).2.host.disk.held paths.image = some written.image ∧
            (patch setup tag module session).2.host.disk.held paths.symbols = some written.symbols) := by
  intro extensions documented
  obtain ⟨hpublished, written, hwritten, hrun⟩ := publish_of_patch hfolder h
  obtain ⟨stem, hlength, hs, hpaths, hstem⟩ := exists_stem hm hx
  have hd : '/' ∉ (module ++ "_patch").toList := by simp [hm]
  refine ⟨_, hpublished, ?_, ?_, fun before after himage hdot => paths_of_dotted hm hx himage hdot, fun ht hnd => ?_⟩
  · rw [hpaths, ← hstem]
    exact ⟨namedPair_image_inj hs hd hx.slash.1, fun he => by rw [he]⟩
  · rw [hpaths, ← hstem]
    exact ⟨namedPair_symbols_inj hs hd hx.slash.2, fun he => by rw [he]⟩
  · have hapart : Path.Apart (attemptArea (extensions.paths (destination setup folder module))
        (tag session.publications)) := by
      refine ⟨?_, fun path hp other ho he => List.inj_on_of_nodup_map hnd hp ho he⟩
      rw [hpaths]
      exact attemptArea_namesFile hlength hs hx ht
    obtain ⟨-, himage, hsymbols, -⟩ :=
      Publish.publish_installs (Host.lawful_of_apart hapart) rfl hnd.of_map hrun
    exact ⟨written, hwritten, himage, hsymbols⟩

/-- A session whose images have an extension of two parts. -/
def dottedSetup : SessionSetup where
  context := ⟨{ Sample.config with extensions := ⟨"dll.bytes", "pdb"⟩ }, Sample.support⟩
  collaborators := Sample.collaborators
  outputFolder := some ⟨"./out"⟩

def dottedStart : Session where
  host := { disk := ⟨[(["out"], .folder)]⟩ }

/-- The dot in the name of the module stays, and the first part of the extension stays, too. -/
theorem patch_published_names_dotted : ∃ outcome paths,
    (patch dottedSetup (processTag 7) "Game.Core" dottedStart).1 = .ok (some outcome) ∧
      outcome.published = some paths ∧ paths = namedPair ⟨"./out"⟩ "Game.Core_patch.dll" ⟨"dll.bytes", "pdb"⟩ ∧
      ∃ written, publication? dottedSetup "Game.Core" =
          some (destination dottedSetup ⟨"./out"⟩ "Game.Core", written) ∧
        (patch dottedSetup (processTag 7) "Game.Core" dottedStart).2.host.disk.held paths.image =
          some written.image ∧
        (patch dottedSetup (processTag 7) "Game.Core" dottedStart).2.host.disk.held paths.symbols =
          some written.symbols := by
  have hsome : ((patch dottedSetup (processTag 7) "Game.Core" dottedStart).1.toOption.bind id).isSome := by
    decide +kernel
  obtain ⟨outcome, ho⟩ := Option.isSome_iff_exists.mp hsome
  obtain ⟨_, hanswer, rfl⟩ := Option.bind_eq_some_iff.mp ho
  have hrun := eq_ok_of_toOption hanswer
  have hfolder : dottedSetup.outputFolder = some ⟨"./out"⟩ := rfl
  obtain ⟨paths, hpublished, -, -, hnames, hheld⟩ :=
    patch_published_names hfolder (by decide) ⟨by decide, by decide⟩ hrun
  obtain rfl := hnames "dll" "bytes" rfl (by decide)
  exact ⟨outcome, _, hrun, hpublished, rfl, hheld (by decide +kernel) (by decide +kernel)⟩

/-- The image and the symbols of a module do not lie where they are looked for. -/
theorem patch_misnames_dotted :
    ((patch dottedSetup (processTag 7) "Game" dottedStart).1.toOption.bind id).bind (·.published) =
        some ⟨⟨"./out/Game_patch.dll.dll.bytes"⟩, ⟨"./out/Game_patch.dll.pdb"⟩⟩ ∧
      namedPair ⟨"./out"⟩ "Game_patch" ⟨"dll.bytes", "pdb"⟩ =
        ⟨⟨"./out/Game_patch.dll.bytes"⟩, ⟨"./out/Game_patch.pdb"⟩⟩ := by
  constructor <;> decide +kernel

end Runs
end Session
end HotPatch
