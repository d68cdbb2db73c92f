import HotPatch.Files.Publish
import HotPatch.Proofs.Separators
import Mathlib.Tactic

/-!
# Names of published files

A path that ends in a file name is a front of folders with that name behind it.
Replacing the extension changes the name alone, and so does the choice of a
temporary name next to a file. Two different extensions give two different
names, and the temporary names of an attempt differ from one another, unless
taking the extension away leaves nothing but the two dots of a folder.
-/

namespace HotPatch
namespace Path

theorem cut_eq_splitOn (separator : Char) (text : List Char) :
    cut separator text = text.splitOn separator := by
  induction text with
  | nil => rfl
  | cons c rest ih =>
    obtain ⟨part, parts, h⟩ := List.exists_cons_of_ne_nil (List.splitOn_ne_nil separator rest)
    rw [cut, ih, List.splitOn_cons_eq_if_modifyHead, h]
    by_cases hc : c = separator <;> simp [hc]

theorem notMem_of_mem_cut {separator : Char} {text part : List Char}
    (h : part ∈ cut separator text) : separator ∉ part := by
  induction text generalizing part with
  | nil => simp only [cut, List.mem_singleton] at h; simp [h]
  | cons c rest ih =>
    rw [cut] at h
    cases hc : cut separator rest with
    | nil => exact absurd hc (by simp [cut_eq_splitOn])
    | cons first parts =>
      have hf : separator ∉ first := ih (by simp [hc])
      simp only [hc] at h
      split_ifs at h with he
      · rcases List.mem_cons.mp h with rfl | h
        · simp
        · exact ih (by rwa [hc])
      · rcases List.mem_cons.mp h with rfl | h
        · simp [hf, Ne.symm he]
        · exact ih (by simp [hc, h])

/-- The text of the names in front of the last one. -/
def front (parts : List String) : String := String.join (parts.map (· ++ "/"))

theorem names_of_notMem {name : String} (h : '/' ∉ name.toList) : (Path.mk name).names = [name] := by
  simp [names, cut_eq_splitOn, List.splitOn_eq_singleton h]

theorem names_append {text name : String} (h : '/' ∉ name.toList) :
    (Path.mk (text ++ "/" ++ name)).names = (Path.mk text).names ++ [name] := by
  have ht : (text ++ "/" ++ name).toList = text.toList ++ '/' :: name.toList := by simp
  rw [names, ht, cut_eq_splitOn, List.splitOn_append_cons_self, List.splitOn_eq_singleton h]
  simp [names, cut_eq_splitOn]

theorem notMem_of_mem_names (path : Path) {name : String} (h : name ∈ path.names) :
    '/' ∉ name.toList := by
  obtain ⟨part, hp, rfl⟩ := List.mem_map.mp h
  rw [String.toList_ofList]
  exact notMem_of_mem_cut hp

theorem names_front {parts : List String} {name : String} (hp : ∀ part ∈ parts, '/' ∉ part.toList)
    (h : '/' ∉ name.toList) : (Path.mk (front parts ++ name)).names = parts ++ [name] := by
  induction parts with
  | nil => simpa [front] using names_of_notMem h
  | cons part parts ih =>
    have hi := ih fun other ho => hp other (by simp [ho])
    simp only [names, cut_eq_splitOn] at hi ⊢
    have ht : (front (part :: parts) ++ name).toList =
        part.toList ++ '/' :: (front parts ++ name).toList := by
      simp [front]
    rw [ht, List.splitOn_append_cons_self_of_not_mem (hp part (by simp)), List.map_cons, hi]
    simp

/-- A last name that names a file: neither missing nor one of the dots of a folder. -/
def IsFileName (name : String) : Prop := name ≠ "" ∧ name ≠ "." ∧ name ≠ ".."

instance : DecidablePred IsFileName := fun name =>
  inferInstanceAs (Decidable (name ≠ "" ∧ name ≠ "." ∧ name ≠ ".."))

theorem getLast?_segments {path : Path} {parts : List String} {name : String}
    (hn : path.names = parts ++ [name]) (h0 : name ≠ "") (h1 : name ≠ ".") :
    path.segments.getLast? = some name := by
  cases parts with
  | nil => simp [segments, hn, h0]
  | cons first rest => simp [segments, hn, List.filter_append, h0, h1]

theorem fileName?_of_names {path : Path} {parts : List String} {name : String}
    (hn : path.names = parts ++ [name]) (h : IsFileName name) : path.fileName? = some name := by
  rw [fileName?, getLast?_segments hn h.1 h.2.1]
  simp [h.2.1, h.2.2]

theorem fileName?_of_dots {path : Path} {parts : List String} (hn : path.names = parts ++ [".."]) :
    path.fileName? = none := by
  rw [fileName?, getLast?_segments hn (by decide) (by decide)]
  simp

theorem around_of_names {path : Path} {parts : List String} {name : String}
    (hn : path.names = parts ++ [name]) : path.around name = (parts, []) := by
  simp [around, hn]

/-- A name whose extension was replaced. -/
def extended (name extension : String) : String :=
  let (stem, previous) := splitName name
  if stem = "." ∧ previous.isSome then ".."
  else stem ++ (if extension = "" then "" else "." ++ extension)

theorem withExtension_of_names {path : Path} {parts : List String} {name : String}
    (hn : path.names = parts ++ [name]) (h : IsFileName name) (extension : String) :
    path.withExtension extension = ⟨front parts ++ extended name extension⟩ := by
  simp only [withExtension, fileName?_of_names hn h, around_of_names hn, extended, front]
  split_ifs <;> simp_all [String.append_assoc]

theorem intercalate_cut (name : String) :
    ".".intercalate ((cut '.' name.toList).map String.ofList) = name := by
  rw [← String.toList_inj, String.toList_intercalate, List.map_map, cut_eq_splitOn]
  simp [Function.comp_def, List.intercalate_splitOn]

theorem splitName_some {name stem extension : String} (h : splitName name = (stem, some extension)) :
    name = stem ++ "." ++ extension ∧ '.' ∉ extension.toList ∧ stem ≠ "" := by
  unfold splitName at h
  split at h
  · rename_i last before earlier hc
    dsimp only at h
    split_ifs at h with hs
    · simp at h
    simp only [Prod.mk.injEq, Option.some.injEq] at h
    obtain ⟨rfl, rfl⟩ := h
    have hcut : cut '.' name.toList = (before :: earlier).reverse ++ [last] := by
      rw [← List.reverse_reverse (cut '.' name.toList), hc, List.reverse_cons]
    refine ⟨?_, ?_, hs⟩
    · have hi := intercalate_cut name
      rw [hcut, List.map_append, String.intercalate_append_of_ne_nil (by simp) (by simp)] at hi
      simpa using hi.symm
    · rw [String.toList_ofList]
      exact notMem_of_mem_cut (by rw [hcut]; simp)
  · simp at h

theorem splitName_of_none {name stem : String} (h : splitName name = (stem, none)) : stem = name := by
  unfold splitName at h
  split at h
  · dsimp only at h
    split_ifs at h
    · exact (congrArg Prod.fst h).symm
    · simp at h
  · exact (congrArg Prod.fst h).symm

/-- A dot with something in front of it splits a name. -/
theorem splitName_append_ne_none {before : String} (after : String) (hb : before ≠ "") :
    (splitName (before ++ "." ++ after)).2 ≠ none := by
  have hcut : cut '.' (before ++ "." ++ after).toList = cut '.' before.toList ++ cut '.' after.toList := by
    have ht : (before ++ "." ++ after).toList = before.toList ++ '.' :: after.toList := by simp
    rw [ht, cut_eq_splitOn, List.splitOn_append_cons_self, ← cut_eq_splitOn, ← cut_eq_splitOn]
  obtain ⟨init, last, hl⟩ : ∃ init last, cut '.' after.toList = init ++ [last] :=
    ⟨_, _, (List.dropLast_append_getLast (by simp [cut_eq_splitOn])).symm⟩
  have hn : cut '.' before.toList ++ init ≠ [] := by simp [cut_eq_splitOn]
  obtain ⟨first, rest, hr⟩ := List.exists_cons_of_ne_nil (List.reverse_ne_nil_iff.mpr hn)
  have hs : ".".intercalate ((first :: rest).reverse.map String.ofList) ≠ "" := by
    rw [← hr, List.reverse_reverse, List.map_append]
    by_cases hi : init = []
    · rwa [hi, List.map_nil, List.append_nil, intercalate_cut]
    · rw [String.intercalate_append_of_ne_nil (by simp [cut_eq_splitOn]) (by simpa using hi),
        intercalate_cut]
      intro he
      simpa using congrArg String.toList he
  have hrev : (cut '.' (before ++ "." ++ after).toList).reverse = last :: first :: rest := by
    rw [hcut, hl, ← List.append_assoc, List.reverse_append, hr]
    rfl
  simp only [splitName, hrev, hs, if_false]
  simp

/-- Stem and extension that the names of the files next to a file are made of. -/
def affixes (name : String) : String × String :=
  if name = ".." then ("", "") else ((splitName name).1, (splitName name).2.getD "")

/-- The last name of a file next to the file with the given name. -/
def siblingName (name purpose tag : String) : String :=
  (affixes name).1 ++ "." ++ purpose ++ "-" ++ tag ++ "." ++ (affixes name).2

theorem notMem_splitName {c : Char} {name : String} (h : c ∉ name.toList) :
    c ∉ (splitName name).1.toList ∧ c ∉ ((splitName name).2.getD "").toList := by
  rcases hs : splitName name with ⟨stem, none | extension⟩
  · rw [splitName_of_none hs]
    exact ⟨h, by simp⟩
  · have hn := (splitName_some hs).1
    rw [hn] at h
    simp only [String.toList_append, List.mem_append, not_or] at h
    exact ⟨h.1.1, h.2⟩

theorem notMem_siblingName {name purpose tag : String} (hn : '/' ∉ name.toList)
    (hp : '/' ∉ purpose.toList) (ht : '/' ∉ tag.toList) :
    '/' ∉ (siblingName name purpose tag).toList := by
  have hs := notMem_splitName hn
  unfold siblingName affixes
  split_ifs <;> simp [hp, ht, hs]

theorem isAbsolute_of_notMem {name : String} (h : '/' ∉ name.toList) : (Path.mk name).isAbsolute = false := by
  rw [isAbsolute, String.startsWith_string_eq_false_iff]
  intro hp
  exact h (hp.subset (by simp))

/-- A file of a folder is a fixed front with its name behind it. The front is nothing, or it ends in a slash,
which the text of the folder may leave out. -/
theorem join_eq_append (folder : Path) : ∃ before,
    (before = "" ∧ folder.text = "" ∨ ∃ text, before = text ++ "/" ∧ (folder.text = before ∨ folder.text = text)) ∧
      ∀ name, '/' ∉ name.toList → folder.join ⟨name⟩ = ⟨before ++ name⟩ := by
  have hjoin : ∀ name : String, '/' ∉ name.toList → folder.join ⟨name⟩ =
      if folder.text = "" ∨ folder.text.endsWith "/" then ⟨folder.text ++ name⟩
      else ⟨folder.text ++ "/" ++ name⟩ := by
    intro name hs
    rw [join, isAbsolute_of_notMem hs, if_neg Bool.false_ne_true]
  by_cases hf : folder.text = "" ∨ folder.text.endsWith "/"
  · refine ⟨folder.text, hf.imp (fun he => ⟨he, he⟩) fun hs => ?_, fun name h => by rw [hjoin name h, if_pos hf]⟩
    change folder.text.toSlice.endsWith "/" = true at hs
    rw [String.Slice.endsWith_string_iff] at hs
    obtain ⟨text, ht⟩ := hs
    refine ⟨String.ofList text, ?_, .inl rfl⟩
    rw [← String.toList_inj, String.toList_append, String.toList_ofList]
    simpa using ht.symm
  · exact ⟨folder.text ++ "/", .inr ⟨folder.text, rfl, .inr rfl⟩, fun name h => by rw [hjoin name h, if_neg hf]⟩

/-- A name in a folder follows the names of the folder, but for the empty one that a slash at the end
leaves behind. -/
theorem names_join {folder : Path} {name : String} (h : '/' ∉ name.toList) :
    ∃ parts, (folder.join ⟨name⟩).names = parts ++ [name] ∧
      (folder.names = parts ++ [""] ∨ folder.names = parts) := by
  obtain ⟨before, hbefore, hjoin⟩ := join_eq_append folder
  rw [hjoin name h]
  rcases hbefore with ⟨rfl, htext⟩ | ⟨text, rfl, htext⟩
  · refine ⟨[], by rw [String.empty_append, names_of_notMem h, List.nil_append], .inl ?_⟩
    rw [names, htext]
    rfl
  · refine ⟨(Path.mk text).names, names_append h, htext.imp (fun hslash => ?_) fun hsame => ?_⟩
    · rw [← names_append (by simp), String.append_empty, ← hslash]
    · rw [← hsame]

theorem getLast?_names_join {folder : Path} {name : String} (h : '/' ∉ name.toList) :
    (folder.join ⟨name⟩).names.getLast? = some name := by
  obtain ⟨parts, hn, -⟩ := @names_join folder name h
  rw [hn, List.getLast?_concat]

theorem getLast?_names_sibling {path : Path} {parts : List String} {name purpose tag : String}
    (hn : path.names = parts ++ [name]) (hf : IsFileName name ∨ name = "..")
    (hs : '/' ∉ (siblingName name purpose tag).toList) :
    (path.sibling purpose tag).names.getLast? = some (siblingName name purpose tag) := by
  rcases hf with hf | rfl
  · have hfile := fileName?_of_names hn hf
    have ha : siblingName name purpose tag =
        path.stem?.getD "" ++ "." ++ purpose ++ "-" ++ tag ++ "." ++ path.extension?.getD "" := by
      simp [siblingName, affixes, hf.2.2, stem?, extension?, hfile]
    rw [sibling, ← ha, withFileName, hfile]
    exact getLast?_names_join hs
  · have hfile := fileName?_of_dots hn
    have ha : siblingName ".." purpose tag =
        path.stem?.getD "" ++ "." ++ purpose ++ "-" ++ tag ++ "." ++ path.extension?.getD "" := by
      simp [siblingName, affixes, stem?, extension?, hfile]
    rw [sibling, ← ha, withFileName, hfile]
    exact getLast?_names_join hs

theorem notMem_dot_affixes (name : String) : '.' ∉ (affixes name).2.toList := by
  unfold affixes
  split_ifs
  · simp
  · rcases hs : splitName name with ⟨stem, none | extension⟩
    · simp
    · exact (splitName_some hs).2.1

theorem affixes_eq_of_siblingName_eq {a b purpose tag : String}
    (h : siblingName a purpose tag = siblingName b purpose tag) : affixes a = affixes b := by
  obtain ⟨hs, hx⟩ := append_separator_inj (notMem_dot_affixes a) (notMem_dot_affixes b) h
  exact Prod.ext (by simpa [String.append_assoc] using hs) hx

theorem siblingName_ne_of_purpose {a b tag : String} :
    siblingName a "pending" tag ≠ siblingName b "backup" tag := by
  intro h
  obtain ⟨hs, -⟩ := append_separator_inj (notMem_dot_affixes a) (notMem_dot_affixes b) h
  rw [String.append_left_inj, String.append_left_inj] at hs
  have hl := congrArg (fun text => text.toList.getLast?) hs
  simp at hl

/-- The stem in front of the extension is never empty. -/
theorem splitName_fst_ne_empty {name : String} (h : name ≠ "") : (splitName name).1 ≠ "" := by
  rcases hs : splitName name with ⟨stem, none | extension⟩
  · rwa [splitName_of_none hs]
  · exact (splitName_some hs).2.2

/-- What a name becomes that keeps its stem. -/
theorem extended_eq {name extension : String} (h : IsFileName name)
    (hd : extended name extension ≠ "..") : (splitName name).1 ≠ "." ∧
      extended name extension =
        (splitName name).1 ++ (if extension = "" then "" else "." ++ extension) := by
  have hs : ¬((splitName name).1 = "." ∧ (splitName name).2.isSome) := by
    intro hs
    simp [extended, hs] at hd
  refine ⟨fun hstem => hs ⟨hstem, ?_⟩, by simp [extended, hs]⟩
  rcases hn : splitName name with ⟨stem, none | previous⟩
  · rw [hn] at hstem
    exact absurd ((splitName_of_none hn).symm.trans hstem) h.2.1
  · rfl

theorem isFileName_extended {name : String} (extension : String) (h : IsFileName name) :
    IsFileName (extended name extension) ∨ extended name extension = ".." := by
  by_cases hd : extended name extension = ".."
  · exact .inr hd
  obtain ⟨hstem, he⟩ := extended_eq h hd
  have hne := splitName_fst_ne_empty h.1
  refine .inl ⟨?_, ?_, hd⟩
  · rw [he]
    exact fun hempty => hne (String.append_eq_empty_iff.mp hempty).1
  · rw [he]
    intro hdot
    split_ifs at hdot
    · exact hstem (by simpa using hdot)
    · have hl := congrArg (·.toList.length) hdot
      have hpos : (splitName name).1.toList.length ≠ 0 := by simpa using hne
      simp at hl
      omega

/-- Two different extensions give two names, or the dots of a folder twice. -/
theorem extended_inj {name x y : String} (h : IsFileName name)
    (he : extended name x = extended name y) : x = y ∨ extended name x = ".." := by
  by_cases hd : extended name x = ".."
  · exact .inr hd
  have hx := (extended_eq h hd).2
  have hy := (extended_eq h (he ▸ hd)).2
  rw [he, hy, String.append_right_inj] at hx
  refine .inl ?_
  split_ifs at hx with h1 h2 h2
  · rw [h1, h2]
  · exact absurd (congrArg (·.toList.length) hx) (by simp)
  · exact absurd (congrArg (·.toList.length) hx) (by simp)
  · rw [String.append_right_inj] at hx
    exact hx.symm

/-- An extension cannot put a lone dot behind a name that has none to split it at. -/
theorem extended_ne_append_dot {name x y : String} (h : IsFileName name)
    (hx : IsFileName (extended name x)) (hy : IsFileName (extended name y))
    (hs : (splitName (extended name x)).2 = none) : extended name y ≠ extended name x ++ "." := by
  intro he
  obtain ⟨-, hex⟩ := extended_eq h hx.2.2
  obtain ⟨-, hey⟩ := extended_eq h hy.2.2
  by_cases hx0 : x = ""
  · rw [if_pos hx0, String.append_empty] at hex
    rw [hey, hex, String.append_right_inj] at he
    split_ifs at he with hy0
    · exact absurd (congrArg (·.toList.length) he) (by simp)
    · exact hy0 (by simpa using he)
  · rw [if_neg hx0, ← String.append_assoc] at hex
    rw [hex] at hs
    exact splitName_append_ne_none x (splitName_fst_ne_empty h.1) hs

theorem affixes_of_isFileName {name : String} (h : IsFileName name) :
    affixes name = ((splitName name).1, (splitName name).2.getD "") := if_neg h.2.2

theorem affixes_dots : affixes ".." = ("", "") := if_pos rfl

/-- The names of the files next to two files tell the files apart. -/
theorem extended_eq_of_affixes {name x y : String} (h : IsFileName name)
    (he : affixes (extended name x) = affixes (extended name y)) :
    extended name x = extended name y := by
  rcases isFileName_extended x h with hx | hx <;>
    rcases isFileName_extended y h with hy | hy
  · rw [affixes_of_isFileName hx, affixes_of_isFileName hy, Prod.mk.injEq] at he
    rcases hsx : splitName (extended name x) with ⟨sx, none | ex⟩ <;>
      rcases hsy : splitName (extended name y) with ⟨sy, none | ey⟩ <;>
      simp only [hsx, hsy, Option.getD_none, Option.getD_some] at he
    · rw [← splitName_of_none hsx, ← splitName_of_none hsy, he.1]
    · refine absurd ?_ (extended_ne_append_dot h hx hy (by rw [hsx]))
      rw [(splitName_some hsy).1, ← he.1, ← he.2, splitName_of_none hsx, String.append_empty]
    · refine absurd ?_ (extended_ne_append_dot h hy hx (by rw [hsy]))
      rw [(splitName_some hsx).1, he.1, he.2, splitName_of_none hsy, String.append_empty]
    · rw [(splitName_some hsx).1, (splitName_some hsy).1, he.1, he.2]
  · rw [affixes_of_isFileName hx, hy, affixes_dots, Prod.mk.injEq] at he
    exact absurd he.1 (splitName_fst_ne_empty hx.1)
  · rw [affixes_of_isFileName hy, hx, affixes_dots, Prod.mk.injEq] at he
    exact absurd he.1.symm (splitName_fst_ne_empty hy.1)
  · rw [hx, hy]

theorem notMem_extended {name extension : String} (hn : '/' ∉ name.toList)
    (he : '/' ∉ extension.toList) : '/' ∉ (extended name extension).toList := by
  have hs := (notMem_splitName hn).1
  unfold extended
  dsimp only
  split_ifs <;> simp [hs, he]

end Path
end HotPatch
