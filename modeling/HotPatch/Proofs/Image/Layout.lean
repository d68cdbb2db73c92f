import HotPatch.Proofs.Image.Contents

/-!
# The layout of an image

Writing an image succeeds exactly if the rows can be encoded and no section
outgrows its limit. The sizes of the sections follow from the module alone, so
the limits can be stated before anything is written.
-/

namespace HotPatch.Image

/-- What the sections of an image are made of. -/
structure Layout where
  nameOffset : Nat
  /-- The strings before the tables are written, which is the name of the module. -/
  named : StringHeap
  written : TableWriter
  userStrings : UserStringHeap
  bodies : Bytes
  offsets : List (Token × Nat)

namespace Layout

variable (layout : Layout)

def bodyOffset (token : Token) : Nat := (layout.offsets.lookup token).getD WriteTables.noBody

def sections : List Bytes :=
  [layout.written.rows.padToFour 0, layout.written.strings.finish, layout.written.blobs.finish,
    layout.userStrings.finish, layout.bodies]

def sizes : SectionSizes where
  tables := (layout.written.rows.padToFour 0).length
  strings := layout.written.strings.finish.length
  blobs := layout.written.blobs.finish.length
  userStrings := layout.userStrings.finish.length
  bodies := layout.bodies.length

def header (module : Module) : Header := ⟨imageVersion, module.versionId, layout.nameOffset, layout.sizes⟩

def image (module : Module) : Bytes := (layout.header module).encode ++ layout.sections.flatten

/-- The parts are those of a module with its encoded bodies. -/
structure Made (layout : Layout) (module : Module) (bodies : Bodies) : Prop where
  named : StringHeap.add {} module.name = .ok (layout.nameOffset, layout.named)
  bodies : layBodies 0 bodies = .ok (layout.bodies, layout.offsets)
  userStrings : module.userStrings.toList.foldlM (fun heap value => return (← UserStringHeap.add heap value).2) {} =
    (.ok layout.userStrings : Result UserStringHeap)
  written : (WriteTables.all module layout.bodyOffset).run { strings := layout.named } = .ok ((), layout.written)

/-- The layout is that of a module with its encoded bodies, and no section is too long. -/
structure Of (layout : Layout) (module : Module) (bodies : Bodies) : Prop extends layout.Made module bodies where
  limited : ∀ bytes ∈ layout.sections, bytes.length < sizeLimit

end Layout

variable {module : Module} {bodies : Bodies} {image : Bytes}

theorem checkCount_eq_ok {length size : Nat} : checkCount length = .ok size ↔ length < sizeLimit ∧ length = size := by
  unfold checkCount
  split_ifs with h <;> simp [h, malformed]

theorem checkCounts_eq_ok {sections : List Bytes} {sizes : List Nat} :
    (sections.mapM fun bytes => checkCount bytes.length) = .ok sizes ↔
      (∀ bytes ∈ sections, bytes.length < sizeLimit) ∧ sections.map List.length = sizes := by
  rw [mapM_eq_ok]
  simp only [checkCount_eq_ok]
  induction sections generalizing sizes with
  | nil => simp [eq_comm]
  | cons bytes sections ih =>
    rw [List.forall₂_cons_left_iff, List.forall_mem_cons, List.map_cons]
    simp only [ih]
    constructor
    · rintro ⟨_, _, ⟨hlt, rfl⟩, ⟨hall, rfl⟩, rfl⟩
      exact ⟨⟨hlt, hall⟩, rfl⟩
    · rintro ⟨⟨hlt, hall⟩, rfl⟩
      exact ⟨_, _, ⟨hlt, rfl⟩, ⟨hall, rfl⟩, rfl⟩

/-- An image is written if it can be laid out, and then it is what the layout says. -/
theorem writeImage_eq_ok : writeImage module bodies = .ok image ↔
    ∃ layout : Layout, layout.Of module bodies ∧ layout.image module = image := by
  constructor
  · intro h
    obtain ⟨⟨nameOffset, named⟩, hn, h⟩ := bind_eq_ok.mp h
    obtain ⟨⟨laid, offsets⟩, hb, h⟩ := bind_eq_ok.mp h
    obtain ⟨userStrings, hu, h⟩ := bind_eq_ok.mp h
    obtain ⟨⟨⟨⟩, written⟩, hw, h⟩ := bind_eq_ok.mp h
    obtain ⟨sizes, hs, h⟩ := bind_eq_ok.mp h
    obtain ⟨hlimited, rfl⟩ := checkCounts_eq_ok.mp hs
    exact ⟨⟨nameOffset, named, written, userStrings, laid, offsets⟩, ⟨⟨hn, hb, hu, hw⟩, hlimited⟩, Except.ok.inj h⟩
  · rintro ⟨⟨nameOffset, named, written, userStrings, laid, offsets⟩, ⟨⟨hn, hb, hu, hw⟩, hlimited⟩, rfl⟩
    exact bind_eq_ok.mpr ⟨_, hn, bind_eq_ok.mpr ⟨_, hb, bind_eq_ok.mpr ⟨_, hu, bind_eq_ok.mpr ⟨_, hw,
      bind_eq_ok.mpr ⟨_, checkCounts_eq_ok.mpr ⟨hlimited, rfl⟩, rfl⟩⟩⟩⟩⟩

theorem le_alignFour (n : Nat) : n ≤ Bytes.alignFour n := by
  rw [Bytes.alignFour]
  omega

section Bodies

variable {start : Nat} {bytes : Bytes} {offsets : List (Token × Nat)}

theorem length_layBodies (h : layBodies start bodies = .ok (bytes, offsets)) :
    bytes.length = (bodies.map fun body => Bytes.alignFour body.2.bytes.length).sum := by
  induction bodies generalizing start bytes offsets with
  | nil =>
    cases h
    rfl
  | cons body bodies ih =>
    rw [layBodies] at h
    split_ifs at h
    · obtain ⟨⟨rest, more⟩, hr, h⟩ := bind_eq_ok.mp h
      cases h
      rw [List.length_append, length_padToFour, ih hr, List.map_cons, List.sum_cons]
    · cases h

theorem exists_layBodies
    (h : start + (bodies.map fun body => Bytes.alignFour body.2.bytes.length).sum < sizeLimit) :
    ∃ bytes offsets, layBodies start bodies = .ok (bytes, offsets) := by
  induction bodies generalizing start with
  | nil => exact ⟨[], [], rfl⟩
  | cons body bodies ih =>
    rw [List.map_cons, List.sum_cons] at h
    obtain ⟨bytes, offsets, hr⟩ := @ih (start + (body.2.bytes.padToFour 0).length) (by
      rw [length_padToFour]
      omega)
    have hlay : layBodies start (body :: bodies) =
        .ok (body.2.bytes.padToFour 0 ++ bytes, (body.1, start) :: offsets) := by
      rw [layBodies, if_pos (by omega)]
      exact bind_eq_ok.mpr ⟨_, hr, rfl⟩
    exact ⟨_, _, hlay⟩

/-- The bytes that the body of a method takes. -/
def bodyWeight (method : MethodDef) : Nat := (method.body.map fun body => Bytes.alignFour body.encodedSize).getD 0

theorem sum_bodyWeight (h : encodeBodies module = .ok bodies) :
    (bodies.map fun body => Bytes.alignFour body.2.bytes.length).sum =
      (module.methods.toList.map bodyWeight).sum := by
  obtain ⟨encoded, he, h⟩ := bind_eq_ok.mp h
  cases h
  have hrows : ∀ (rows : List (Token × MethodDef)) encoded,
      List.Forall₂ (fun row value => encodeBody row.1 row.2 = .ok value) rows encoded →
      ((encoded.filterMap id).map fun body => Bytes.alignFour body.2.bytes.length).sum =
        ((rows.map Prod.snd).map bodyWeight).sum := by
    intro rows encoded hall
    induction hall with
    | nil => rfl
    | @cons row value rows encoded hfirst _ ih =>
      rw [List.map_cons, List.map_cons, List.sum_cons, ← ih, bodyWeight]
      unfold encodeBody at hfirst
      rcases hb : row.2.body with - | body <;> rw [hb] at hfirst
      · cases hfirst
        simp
      · obtain ⟨bytes, hbytes, hvalue⟩ := bind_eq_ok.mp hfirst
        cases hvalue
        rw [List.filterMap_cons_some (f := id) rfl, List.map_cons, List.sum_cons, Body.length_encode hbytes]
        rfl
  rw [← Module.map_snd_methodRows]
  exact hrows _ _ (mapM_eq_ok.mp he)

end Bodies

section Sizes

variable {layout : Layout}

/-- No section outgrows its limit. -/
structure SectionsFit (module : Module) : Prop where
  tables : Bytes.alignFour (Content.tables module).width < sizeLimit
  strings :
    Bytes.alignFour (heapSize stringWeight (filled "" (module.name :: (Content.tables module).strings))) < sizeLimit
  blobs : Bytes.alignFour (heapSize blobWeight (filled [] (Content.tables module).encoded)) < sizeLimit
  userStrings : Bytes.alignFour (1 + (module.userStrings.toList.map userStringWeight).sum) < sizeLimit
  bodies : (module.methods.toList.map bodyWeight).sum < sizeLimit

theorem Content.width_strings4 (values : List String) :
    (Content.strings4 values).width = 4 + 4 * values.length := by
  have hone : ∀ value, (Content.string value).width = 4 := fun _ => rfl
  rw [Content.strings4, Content.width_append, Content.width_concat, List.map_map]
  simp [Function.comp_def, hone, Content.bytes, Nat.mul_comm]

theorem Content.width_row_le {table : Table} {content : Content} (h : content ∈ Content.rows module table) :
    content.width ≤ (Content.tables module).width := by
  have hpresent : table ∈ Content.present module := by
    rw [mem_present, ← length_rows]
    exact List.length_pos_of_mem h
  have htable := Content.width_le_concat
    (List.mem_map_of_mem (f := fun table => Content.concat (Content.rows module table)) hpresent)
  rw [Content.tables, Content.width_append, Content.width_append]
  have hrow := Content.width_le_concat h
  omega

/-- Names of generic parameters take four bytes each in the tables. -/
theorem SectionsFit.generics_lt (h : SectionsFit module) :
    (∀ type ∈ module.typeDefs, type.generics.length < 2 ^ 30) ∧
      ∀ method ∈ module.methods, method.generics.length < 2 ^ 30 := by
  have htables := Nat.lt_of_le_of_lt (le_alignFour _) h.tables
  have hwidth : ∀ {content : Content} {names : List String}, (Content.strings4 names).width ≤ content.width →
      content.width ≤ (Content.tables module).width → names.length < 2 ^ 30 := by
    intro content names hnames hcontent
    rw [Content.width_strings4] at hnames
    have hlimit : sizeLimit = 2 ^ 32 := rfl
    omega
  constructor
  · intro type ht
    refine hwidth ?_ (@Content.width_row_le _ .typeDef _ (List.mem_map_of_mem (Array.mem_toList_iff.mpr ht)))
    simp only [Content.typeDef, Content.width_append]
    omega
  · intro method hm
    refine hwidth ?_ (@Content.width_row_le _ .methodDef _ (List.mem_map_of_mem (Array.mem_toList_iff.mpr hm)))
    simp only [Content.method, Content.width_append]
    omega

theorem Layout.Made.wrote (h : layout.Made module bodies) :
    ({ strings := layout.named } : TableWriter).Sized ∧
      TableWriter.Wrote { strings := layout.named } (Content.tables module) layout.written ∧
      layout.named.keys = filled "" [module.name] := by
  obtain ⟨hsized, hkeys⟩ := add_string_ok Heap.sized_empty h.named
  have hstart : ({ strings := layout.named } : TableWriter).Sized := ⟨hsized, Heap.sized_empty⟩
  refine ⟨hstart, (Writes.all module _).wrote _ _ hstart h.written, ?_⟩
  rw [hkeys]
  exact Finset.empty_union _

/-- The sizes of the sections depend on the module alone. -/
theorem Layout.Made.lengths (h : layout.Made module bodies) (hb : encodeBodies module = .ok bodies) :
    layout.sections.map List.length = [Bytes.alignFour (Content.tables module).width,
      Bytes.alignFour (heapSize stringWeight (filled "" (module.name :: (Content.tables module).strings))),
      Bytes.alignFour (heapSize blobWeight (filled [] (Content.tables module).encoded)),
      Bytes.alignFour (1 + (module.userStrings.toList.map userStringWeight).sum),
      (module.methods.toList.map bodyWeight).sum] := by
  obtain ⟨-, hw, hnamed⟩ := h.wrote
  have htables : layout.written.rows.length = (Content.tables module).width := by
    rw [hw.width]
    exact Nat.zero_add _
  have hstrings : layout.written.strings.size =
      heapSize stringWeight (filled "" (module.name :: (Content.tables module).strings)) := by
    rw [hw.strings, hw.stringKeys, hnamed, ← filled_append]
    rfl
  have hblobs : layout.written.blobs.size = heapSize blobWeight (filled [] (Content.tables module).encoded) := by
    rw [hw.blobs, hw.blobKeys]
    exact congrArg _ (Finset.empty_union _)
  have huserStrings : layout.userStrings.size = 1 + (module.userStrings.toList.map userStringWeight).sum :=
    addAll_userStrings_ok h.userStrings
  rw [Layout.sections, List.map_cons, List.map_cons, List.map_cons, List.map_cons, List.map_singleton,
    length_padToFour, length_finish, length_finish, length_finish, length_layBodies h.bodies, sum_bodyWeight hb,
    htables, hstrings, hblobs, huserStrings]

theorem Layout.Of.sectionsFit (h : layout.Of module bodies) (hb : encodeBodies module = .ok bodies) :
    SectionsFit module := by
  have hlimited : ∀ size ∈ layout.sections.map List.length, size < sizeLimit := by
    rw [List.forall_mem_map]
    exact h.limited
  rw [h.lengths hb] at hlimited
  simp only [List.forall_mem_cons, List.not_mem_nil, false_implies, implies_true, and_true] at hlimited
  obtain ⟨htables, hstrings, hblobs, huserStrings, hbodies⟩ := hlimited
  exact ⟨htables, hstrings, hblobs, huserStrings, hbodies⟩

/-- A module whose blobs can be encoded has a layout as long as the sections fit. -/
theorem SectionsFit.exists_layout (h : SectionsFit module) (hb : encodeBodies module = .ok bodies)
    (hblobs : ∀ blob ∈ (Content.tables module).blobs, ∃ bytes, blob = .ok bytes)
    (hcounts : ∀ count ∈ (Content.tables module).counts, count < sizeLimit) :
    ∃ layout : Layout, layout.Of module bodies := by
  have htables := Nat.lt_of_le_of_lt (le_alignFour _) h.tables
  have hstrings := Nat.lt_of_le_of_lt (le_alignFour _) h.strings
  have hblobSize := Nat.lt_of_le_of_lt (le_alignFour _) h.blobs
  have huserStrings : ({} : UserStringHeap).size + (module.userStrings.toList.map userStringWeight).sum <
      sizeLimit := Nat.lt_of_le_of_lt (le_alignFour _) h.userStrings
  have hbodies := h.bodies
  rw [← sum_bodyWeight hb] at hbodies
  have hname : heapSize stringWeight (({} : StringHeap).keys ∪ filled "" [module.name]) < sizeLimit := by
    refine Nat.lt_of_le_of_lt (heapSize_mono _ ?_) hstrings
    rw [show module.name :: (Content.tables module).strings = [module.name] ++ _ from rfl, filled_append]
    exact (Finset.empty_union _).subset.trans Finset.subset_union_left
  obtain ⟨nameOffset, named, hn⟩ := exists_add_string Heap.sized_empty hname
  obtain ⟨hsized, hkeys⟩ := add_string_ok Heap.sized_empty hn
  have hnamed : named.keys = filled "" [module.name] := hkeys.trans (Finset.empty_union _)
  obtain ⟨laid, offsets, hl⟩ := exists_layBodies (by rwa [Nat.zero_add])
  obtain ⟨userStrings, hu⟩ := exists_addAll_userStrings huserStrings
  have hroom : TableWriter.Room { strings := named } (Content.tables module) := by
    refine ⟨htables, ?_, ?_, hblobs, hcounts⟩
    · rw [hnamed, ← filled_append]
      exact hstrings
    · refine Nat.lt_of_le_of_lt (heapSize_mono _ ?_) hblobSize
      exact (Finset.empty_union _).subset
  obtain ⟨written, hw⟩ := (Writes.all module fun token =>
    (offsets.lookup token).getD WriteTables.noBody).succeeds _ ⟨hsized, Heap.sized_empty⟩ hroom
  have hmade : Layout.Made ⟨nameOffset, named, written, userStrings, laid, offsets⟩ module bodies := ⟨hn, hl, hu, hw⟩
  have hsizes := hmade.lengths hb
  refine ⟨_, hmade, fun bytes hm => ?_⟩
  have hsize := List.mem_map_of_mem (f := List.length) hm
  rw [hsizes] at hsize
  simp only [List.mem_cons, List.not_mem_nil, or_false] at hsize
  rcases hsize with hsize | hsize | hsize | hsize | hsize <;> rw [hsize]
  · exact h.tables
  · exact h.strings
  · exact h.blobs
  · exact h.userStrings
  · exact h.bodies

end Sizes
end HotPatch.Image
