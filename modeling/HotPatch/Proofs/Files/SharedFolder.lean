import HotPatch.Proofs.Files.DiskPlaces
import HotPatch.Proofs.Files.PublishedPaths
import Mathlib.Data.List.TakeWhile

/-!
# Files of one folder

However the paths are written, all files of an attempt stand in the folder of
its destination. There the names alone tell the files apart: the six names of an
attempt are made of three stems and two extensions.
-/

namespace HotPatch
namespace Path

/-- The path of a file with this name in the folder at this place. -/
structure StandsIn (path : Path) (base : Location) (name : String) : Prop where
  fileName : IsFileName name
  names : ∃ parts, path.names = parts ++ [name] ∧ parts.foldl Location.step [] = base

variable {path folder : Path} {base : Location} {name : String}

theorem StandsIn.location (h : path.StandsIn base name) : path.location = base ++ [name] := by
  obtain ⟨parts, hn, hb⟩ := h.names
  rw [location_of_names hn h.fileName, hb]

theorem StandsIn.namesFile (h : path.StandsIn base name) : path.NamesFile := by
  obtain ⟨parts, hn, -⟩ := h.names
  exact ⟨parts, name, hn, h.fileName⟩

theorem standsIn_join (hf : IsFileName name) (hs : '/' ∉ name.toList) :
    (folder.join ⟨name⟩).StandsIn folder.location name := by
  obtain ⟨parts, hn, hfolder⟩ := @names_join folder name hs
  refine ⟨hf, parts, hn, ?_⟩
  rw [location]
  rcases hfolder with h | h <;> rw [h]
  rw [List.foldl_append]
  rfl

theorem StandsIn.withExtension {extension : String} (h : path.StandsIn base name)
    (hf : IsFileName (extended name extension)) (he : '/' ∉ extension.toList) :
    (path.withExtension extension).StandsIn base (extended name extension) := by
  obtain ⟨parts, hn, hb⟩ := h.names
  have hparts : ∀ part ∈ parts, '/' ∉ part.toList := fun part hm => notMem_of_mem_names path (by simp [hn, hm])
  have hname : '/' ∉ name.toList := notMem_of_mem_names path (by simp [hn])
  refine ⟨hf, parts, ?_, hb⟩
  rw [withExtension_of_names hn h.fileName, names_front hparts (notMem_extended hname he)]

theorem names_intercalate {parts : List String} (hp : ∀ part ∈ parts, '/' ∉ part.toList) (hn : parts ≠ []) :
    (Path.mk ("/".intercalate parts)).names = parts := by
  have hs : (['/'].intercalate (parts.map String.toList)).splitOn '/' = parts.map String.toList :=
    List.splitOn_intercalate '/' (by simpa using hp) (by simpa using hn)
  rw [names, cut_eq_splitOn, String.toList_intercalate]
  change ((['/'].intercalate (parts.map String.toList)).splitOn '/').map String.ofList = parts
  rw [hs, List.map_map]
  simp

/-- Names that do not count lead nowhere. -/
def isSkipped (part : String) : Bool := part = "" ∨ part = "."

theorem foldl_step_of_skipped {parts : List String} (h : ∀ part ∈ parts, isSkipped part) (start : Location) :
    parts.foldl Location.step start = start := by
  induction parts with
  | nil => rfl
  | cons part parts ih =>
    rw [List.foldl_cons, Location.step, if_pos (by simpa [isSkipped] using h part List.mem_cons_self)]
    exact ih fun other ho => h other (List.mem_cons_of_mem _ ho)

theorem location_of_skipped {part : String} (h : isSkipped part) : (Path.mk part).location = [] := by
  have hp : part = "" ∨ part = "." := by simpa [isSkipped] using h
  rcases hp with rfl | rfl
  · decide
  · decide

theorem folder_of_names {parts : List String} (hn : path.names = parts ++ [name]) : path.folder name =
    match (parts.reverse.dropWhile isSkipped).reverse with
    | [] => if path.isAbsolute then ⟨"/"⟩ else ⟨parts.headD ""⟩
    | kept => ⟨"/".intercalate kept⟩ := by
  rw [folder, around_of_names hn]
  rfl

/-- The folder of a file is the one that the names in front lead to. -/
theorem location_folder {parts : List String} (hn : path.names = parts ++ [name]) :
    (path.folder name).location = parts.foldl Location.step [] := by
  obtain ⟨kept, tail, rfl, hkept, htail⟩ : ∃ kept tail, parts = kept ++ tail ∧
      (parts.reverse.dropWhile isSkipped).reverse = kept ∧ ∀ part ∈ tail, isSkipped part := by
    refine ⟨_, (parts.reverse.takeWhile isSkipped).reverse, ?_, rfl, fun part hm => ?_⟩
    · rw [← List.reverse_append, List.takeWhile_append_dropWhile, List.reverse_reverse]
    · exact List.mem_takeWhile_imp (List.mem_reverse.mp hm)
  rw [folder_of_names hn, hkept, List.foldl_append, foldl_step_of_skipped htail]
  rcases kept with - | ⟨first, rest⟩
  · dsimp only [List.nil_append, List.foldl_nil]
    split_ifs
    · decide
    · rcases tail with - | ⟨part, tail⟩
      · decide
      · exact location_of_skipped (htail part List.mem_cons_self)
  · dsimp only
    rw [location, names_intercalate _ (List.cons_ne_nil first rest)]
    intro part hm
    exact notMem_of_mem_names path (by rw [hn]; exact List.mem_append_left _ (List.mem_append_left _ hm))

theorem StandsIn.sibling {purpose tag : String} (h : path.StandsIn base name)
    (hp : '/' ∉ purpose.toList) (ht : '/' ∉ tag.toList) (hf : IsFileName (siblingName name purpose tag)) :
    (path.sibling purpose tag).StandsIn base (siblingName name purpose tag) := by
  obtain ⟨parts, hn, hb⟩ := h.names
  have hname : '/' ∉ name.toList := notMem_of_mem_names path (by simp [hn])
  have hfile := fileName?_of_names hn h.fileName
  have hs : siblingName name purpose tag =
      path.stem?.getD "" ++ "." ++ purpose ++ "-" ++ tag ++ "." ++ path.extension?.getD "" := by
    simp [siblingName, affixes, h.fileName.2.2, stem?, extension?, hfile]
  rw [Path.sibling, ← hs, withFileName, hfile, ← hb, ← location_folder hn]
  exact standsIn_join hf (notMem_siblingName hname hp ht)

/-- Different names in one folder lead to places of their own. -/
theorem map_location {area : List Path} {names : List String}
    (h : List.Forall₂ (fun path name => path.StandsIn base name) area names) :
    area.map Path.location = names.map fun name => base ++ [name] := by
  induction h with
  | nil => rfl
  | cons hp _ ih => rw [List.map_cons, List.map_cons, hp.location, ih]

theorem namesFile_of_standsIn {area : List Path} {names : List String}
    (h : List.Forall₂ (fun path name => path.StandsIn base name) area names) : ∀ path ∈ area, path.NamesFile := by
  induction h with
  | nil => exact List.forall_mem_nil _
  | cons hp _ ih => exact List.forall_mem_cons.mpr ⟨hp.namesFile, ih⟩

theorem Apart.of_standsIn {area : List Path} {names : List String}
    (h : List.Forall₂ (fun path name => path.StandsIn base name) area names) (hn : names.Nodup) :
    area.Nodup ∧ Apart area := by
  have hnd : (area.map Path.location).Nodup := by
    rw [map_location h]
    exact hn.map fun a b he => by simpa using he
  exact ⟨hnd.of_map, namesFile_of_standsIn h, fun path hp other ho he => List.inj_on_of_nodup_map hnd hp ho he⟩

/-! Names that are a stem, a dot and an extension. -/

section Dotted

variable {stem extension : String}

theorem splitName_append (hs : stem ≠ "") (he : '.' ∉ extension.toList) :
    splitName (stem ++ "." ++ extension) = (stem, some extension) := by
  rcases hn : splitName (stem ++ "." ++ extension) with ⟨before, none | after⟩
  · exact absurd (congrArg Prod.snd hn) (splitName_append_ne_none extension hs)
  · obtain ⟨hname, ha, -⟩ := splitName_some hn
    obtain ⟨rfl, rfl⟩ := append_separator_inj he ha hname
    rfl

theorem isFileName_append (hs : stem ≠ "") (he : extension ≠ "") : IsFileName (stem ++ "." ++ extension) := by
  have hlength : 3 ≤ (stem ++ "." ++ extension).toList.length := by
    have h1 := List.length_pos_iff.mpr (String.toList_eq_nil_iff.not.mpr hs)
    have h2 := List.length_pos_iff.mpr (String.toList_eq_nil_iff.not.mpr he)
    rw [String.toList_append, String.toList_append, List.length_append, List.length_append]
    simp only [String.reduceToList, List.length_cons, List.length_nil]
    omega
  refine ⟨?_, ?_, ?_⟩ <;> intro h <;> rw [h] at hlength <;> exact absurd hlength (by decide)

theorem extended_append {other : String} (hs : stem ≠ "") (hd : stem ≠ ".") (he : '.' ∉ extension.toList)
    (ho : other ≠ "") : extended (stem ++ "." ++ extension) other = stem ++ "." ++ other := by
  rw [extended, splitName_append hs he]
  simp [hd, ho, String.append_assoc]

theorem siblingName_append {purpose tag : String} (hs : stem ≠ "") (hne : extension ≠ "")
    (he : '.' ∉ extension.toList) : siblingName (stem ++ "." ++ extension) purpose tag =
      stem ++ "." ++ purpose ++ "-" ++ tag ++ "." ++ extension := by
  rw [siblingName, affixes_of_isFileName (isFileName_append hs hne), splitName_append hs he]
  rfl

end Dotted
end Path

/-- Extensions that are different from one another and that no part of a name can be taken for. -/
@[mk_iff]
structure Extensions.Plain (extensions : Extensions) : Prop where
  differ : extensions.image ≠ extensions.symbols
  nonempty : extensions.image ≠ "" ∧ extensions.symbols ≠ ""
  dot : '.' ∉ extensions.image.toList ∧ '.' ∉ extensions.symbols.toList
  slash : '/' ∉ extensions.image.toList ∧ '/' ∉ extensions.symbols.toList

instance (extensions : Extensions) : Decidable extensions.Plain := decidable_of_iff' _ extensions.plain_iff

namespace Publish

/-- The stems of the files of a pair, of their pending files and of their copies. -/
def stems (stem tag : String) : List String :=
  [stem, stem ++ "." ++ "pending" ++ "-" ++ tag, stem ++ "." ++ "backup" ++ "-" ++ tag]

/-- The names of all files that an attempt deals with. -/
def attemptNames (extensions : Extensions) (stem tag : String) : List String :=
  (stems stem tag ×ˢ [extensions.image, extensions.symbols]).map fun (part, extension) => part ++ "." ++ extension

variable {extensions : Extensions} {base : Location} {destination : Path} {stem tag : String}

theorem stems_nodup (stem tag : String) : (stems stem tag).Nodup := by
  have hlength : ((stems stem tag).map (·.toList.length)).Nodup := by
    simp only [stems, List.map_cons, List.map_nil, String.toList_append, List.length_append, String.reduceToList,
      List.length_cons, List.length_nil, List.nodup_cons, List.mem_cons, List.not_mem_nil, or_false, not_or,
      List.nodup_nil, not_false_eq_true, and_true]
    omega
  exact hlength.of_map

theorem attemptNames_nodup (hx : extensions.Plain) : (attemptNames extensions stem tag).Nodup := by
  have hdot : ∀ extension ∈ [extensions.image, extensions.symbols], '.' ∉ extension.toList := by
    intro extension hm
    rcases List.mem_pair.mp hm with rfl | rfl
    · exact hx.dot.1
    · exact hx.dot.2
  apply List.Nodup.map_on
  · rintro ⟨a, x⟩ ha ⟨b, y⟩ hb h
    obtain ⟨rfl, rfl⟩ := append_separator_inj (hdot x (List.pair_mem_product.mp ha).2)
      (hdot y (List.pair_mem_product.mp hb).2) h
    rfl
  · exact (stems_nodup stem tag).product (by simpa using hx.differ)

/-- All files of an attempt stand in the folder of its destination. -/
theorem attemptArea_standIn (hx : extensions.Plain) (hs : stem ≠ "") (hd : stem ≠ ".") (ht : '/' ∉ tag.toList)
    (h : destination.StandsIn base (stem ++ "." ++ extensions.image)) :
    List.Forall₂ (fun path name => path.StandsIn base name)
      (attemptArea (extensions.paths destination) tag) (attemptNames extensions stem tag) := by
  have hpath : ∀ {other : String}, other ≠ "" → '/' ∉ other.toList →
      (destination.withExtension other).StandsIn base (stem ++ "." ++ other) := by
    intro other hne hslash
    have he := Path.extended_append hs hd hx.dot.1 hne
    have hw := h.withExtension (he ▸ Path.isFileName_append hs hne) hslash
    rwa [he] at hw
  have hsibling : ∀ {path : Path} {other purpose : String}, other ≠ "" → '.' ∉ other.toList →
      '/' ∉ purpose.toList → path.StandsIn base (stem ++ "." ++ other) →
      (path.sibling purpose tag).StandsIn base (stem ++ "." ++ purpose ++ "-" ++ tag ++ "." ++ other) := by
    intro path other purpose hne hdot hp hpath
    have he := @Path.siblingName_append _ _ purpose tag hs hne hdot
    have hf : Path.IsFileName (Path.siblingName (stem ++ "." ++ other) purpose tag) := by
      rw [he]
      exact Path.isFileName_append (by simp [hs]) hne
    exact he ▸ hpath.sibling hp ht hf
  have hpair : ∀ {purpose : String}, '/' ∉ purpose.toList →
      ((destination.withExtension extensions.image).sibling purpose tag).StandsIn base
          (stem ++ "." ++ purpose ++ "-" ++ tag ++ "." ++ extensions.image) ∧
        ((destination.withExtension extensions.symbols).sibling purpose tag).StandsIn base
          (stem ++ "." ++ purpose ++ "-" ++ tag ++ "." ++ extensions.symbols) := fun hp =>
    ⟨hsibling hx.nonempty.1 hx.dot.1 hp (hpath hx.nonempty.1 hx.slash.1),
      hsibling hx.nonempty.2 hx.dot.2 hp (hpath hx.nonempty.2 hx.slash.2)⟩
  obtain ⟨hpi, hps⟩ := @hpair "pending" (by decide)
  obtain ⟨hbi, hbs⟩ := @hpair "backup" (by decide)
  simp only [attemptNames, stems, List.product_cons, List.map_cons, List.map_nil, List.cons_append,
    List.nil_append, attemptArea, temporaries, pendings, backups]
  exact .cons (hpath hx.nonempty.1 hx.slash.1) (.cons (hpath hx.nonempty.2 hx.slash.2)
    (.cons hpi (.cons hps (.cons hbi (.cons hbs .nil)))))

end Publish
end HotPatch
