import HotPatch.Proofs.Files.PathNames

/-!
# The files of an attempt

An attempt deals with six files: the two of the pair, a pending file for each
and a copy of each. Unless taking the extension away leaves the dots of a
folder, the six paths differ from one another, as long as no temporary name is
that of a file of the pair.
-/

namespace HotPatch.Publish

/-- The pending files of an attempt. -/
def pendings (paths : PublishedPaths) (tag : String) : List Path :=
  [paths.image.sibling "pending" tag, paths.symbols.sibling "pending" tag]

/-- The copies that an attempt may make, each with the file that it is made of. -/
def backups (paths : PublishedPaths) (tag : String) : List (Path × Path) :=
  [(paths.image.sibling "backup" tag, paths.image), (paths.symbols.sibling "backup" tag, paths.symbols)]

/-- The files that belong to one attempt alone. -/
def temporaries (paths : PublishedPaths) (tag : String) : List Path :=
  pendings paths tag ++ (backups paths tag).map (·.1)

/-- All files that an attempt deals with. -/
def attemptArea (paths : PublishedPaths) (tag : String) : List Path :=
  paths.image :: paths.symbols :: temporaries paths tag

variable {extensions : Extensions} {destination : Path} {parts : List String} {name tag : String}

/-- Both files of a pair keep the front of the destination and take a name made of its name. -/
theorem names_paths (hn : destination.names = parts ++ [name]) (hf : Path.IsFileName name)
    (hi : '/' ∉ extensions.image.toList) (hs : '/' ∉ extensions.symbols.toList) :
    (extensions.paths destination).image.names = parts ++ [Path.extended name extensions.image] ∧
      (extensions.paths destination).symbols.names = parts ++ [Path.extended name extensions.symbols] := by
  have hparts : ∀ part ∈ parts, '/' ∉ part.toList := fun part hm =>
    Path.notMem_of_mem_names destination (by simp [hn, hm])
  have hname : '/' ∉ name.toList := Path.notMem_of_mem_names destination (by simp [hn])
  simp only [Extensions.paths, Path.withExtension_of_names hn hf]
  exact ⟨Path.names_front hparts (Path.notMem_extended hname hi),
    Path.names_front hparts (Path.notMem_extended hname hs)⟩

/-- Files next to two files of different names have different names, and so have files next to any two
files that serve different purposes. -/
theorem temporaries_nodup {paths : PublishedPaths} {front back : List String} {first second : String}
    (hi : paths.image.names = front ++ [Path.extended name first])
    (hs : paths.symbols.names = back ++ [Path.extended name second]) (hf : Path.IsFileName name)
    (hne : Path.extended name first ≠ Path.extended name second) (ht : '/' ∉ tag.toList) :
    (temporaries paths tag).Nodup := by
  have hlast : ∀ {path : Path} {parts : List String} {x : String},
      path.names = parts ++ [Path.extended name x] → ∀ purpose, '/' ∉ purpose.toList →
        (path.sibling purpose tag).names.getLast? =
          some (Path.siblingName (Path.extended name x) purpose tag) := by
    intro path parts x hn purpose hp
    have hx : '/' ∉ (Path.extended name x).toList := Path.notMem_of_mem_names path (by simp [hn])
    exact Path.getLast?_names_sibling hn (Path.isFileName_extended x hf)
      (Path.notMem_siblingName hx hp ht)
  have hdiffer : ∀ purpose, '/' ∉ purpose.toList →
      paths.image.sibling purpose tag ≠ paths.symbols.sibling purpose tag := by
    intro purpose hp he
    have h := hlast hi purpose hp
    rw [he, hlast hs purpose hp, Option.some.injEq] at h
    exact hne (Path.extended_eq_of_affixes hf (Path.affixes_eq_of_siblingName_eq h)).symm
  have hpurpose : ∀ {a b : Path} {p q : List String} {x y : String},
      a.names = p ++ [Path.extended name x] → b.names = q ++ [Path.extended name y] →
        a.sibling "pending" tag ≠ b.sibling "backup" tag := by
    intro a b p q x y ha hb he
    have h := hlast ha "pending" (by decide)
    rw [he, hlast hb "backup" (by decide), Option.some.injEq] at h
    exact Path.siblingName_ne_of_purpose h.symm
  simp only [temporaries, pendings, backups, List.map_cons, List.map_nil, List.cons_append,
    List.nil_append, List.nodup_cons, List.mem_cons, List.not_mem_nil, or_false, not_or,
    not_false_eq_true, List.nodup_nil, and_true]
  exact ⟨⟨hdiffer _ (by decide), hpurpose hi hi, hpurpose hi hs⟩, ⟨hpurpose hs hi, hpurpose hs hs⟩,
    hdiffer _ (by decide)⟩

/-- Two different extensions give six different paths, or lead to a folder. -/
theorem paths_apart {paths : PublishedPaths} (hpaths : extensions.paths destination = paths)
    (hn : destination.names = parts ++ [name]) (hf : Path.IsFileName name)
    (hdiffer : extensions.image ≠ extensions.symbols) (hi : '/' ∉ extensions.image.toList)
    (hs : '/' ∉ extensions.symbols.toList) (ht : '/' ∉ tag.toList)
    (himage : paths.image ∉ temporaries paths tag) (hsymbols : paths.symbols ∉ temporaries paths tag) :
    (attemptArea paths tag).Nodup ∧
        (paths.image.fileName?.isSome → paths.symbols.fileName?.isSome →
          paths.symbols.same paths.image = false) ∨
      paths.image = paths.symbols ∧ paths.image.fileName? = none := by
  obtain ⟨hin, hsn⟩ := names_paths hn hf hi hs
  rw [hpaths] at hin hsn
  by_cases he : Path.extended name extensions.image = Path.extended name extensions.symbols
  · obtain hx | hdots := Path.extended_inj hf he
    · exact absurd hx hdiffer
    · refine .inr ⟨?_, Path.fileName?_of_dots (hdots ▸ hin)⟩
      simp only [← hpaths, Extensions.paths, Path.withExtension_of_names hn hf, he]
  refine .inl ⟨?_, fun hif hsf => ?_⟩
  · have hne : paths.image ≠ paths.symbols := by
      intro h
      rw [h, hsn] at hin
      exact he (by simpa using hin.symm)
    exact List.nodup_cons.mpr ⟨by simpa using ⟨hne, himage⟩,
      List.nodup_cons.mpr ⟨hsymbols, temporaries_nodup hin hsn hf he ht⟩⟩
  · have hfile : ∀ {path : Path} {x : String}, path.names = parts ++ [Path.extended name x] →
        path.fileName?.isSome → path.fileName? = some (Path.extended name x) := by
      intro path x hp hsome
      rcases Path.isFileName_extended x hf with h | h
      · exact Path.fileName?_of_names hp h
      · rw [Path.fileName?_of_dots (h ▸ hp)] at hsome
        simp at hsome
    rw [← Bool.not_eq_true]
    intro hsame
    simp only [Path.same, Bool.and_eq_true, beq_iff_eq] at hsame
    have hname : paths.symbols.fileName? = paths.image.fileName? := by
      rw [Path.fileName?, Path.fileName?, hsame.2]
    rw [hfile hin hif, hfile hsn hsf, Option.some.injEq] at hname
    exact he hname.symm

end HotPatch.Publish
