import HotPatch.Proofs.Image.BodyPlaces
import HotPatch.Proofs.Image.RecordedRows
import HotPatch.Proofs.Image.UserStringReader
import HotPatch.Proofs.Module.Built

/-!
# Images are read back

A reader that goes by the layout alone, header, sections, tables and heaps,
finds in a written image everything that the module holds. Tables and the offset
of the name refer to heaps that have grown since, which is why a heap keeps what
it holds; the bytes that fill a section up stand behind everything that is read.
-/

namespace HotPatch

/-- A linked type is stored as it is. -/
theorem TypeDef.stored_eq {type : TypeDef} (h : Module.Linked type) : type.stored = type := by
  have hkeep : ∀ token : Option Token, (∀ value, token = some value → value.isNull = false) →
      token.filter (!·.isNull) = token := by
    intro token ht
    rcases token with - | value
    · rfl
    · rw [Option.filter_some, ht value rfl]
      rfl
  rw [stored, hkeep _ h.base, hkeep _ h.enclosing]

namespace Image

section Reading

/-- The parts of an image behind its header. -/
structure Sections where
  tables : Bytes
  strings : Bytes
  blobs : Bytes
  userStrings : Bytes
  bodies : Bytes

def Sections.reader (sizes : SectionSizes) : Reader Sections := do
  let tables ← Reader.bytes sizes.tables
  let strings ← Reader.bytes sizes.strings
  let blobs ← Reader.bytes sizes.blobs
  let userStrings ← Reader.bytes sizes.userStrings
  let bodies ← Reader.bytes sizes.bodies
  return { tables, strings, blobs, userStrings, bodies }

/-- What an image says. Bodies are left as the bytes of their section. -/
structure StoredImage where
  header : Header
  name : String
  tables : List (Table × List StoredRow)
  userStrings : List String
  bodies : Bytes

/-- Reads an image by its layout. -/
def readImage (image : Bytes) : Result StoredImage := do
  let header ← Header.parse image
  let name ← header.moduleName image
  let (sections, _) ← (Sections.reader header.sections).run (image.drop headerSize)
  let (tables, _) ← (Heaps.tables ⟨sections.strings, sections.blobs⟩).run sections.tables
  return { header, name, tables, userStrings := userStringsOf sections.userStrings, bodies := sections.bodies }

end Reading

section Headers

variable {header : Header}

/-- The numbers of a header fit into the bytes that they are written in. -/
structure Header.Narrow (header : Header) : Prop where
  version : header.version < 2 ^ 16
  nameOffset : header.nameOffset < 2 ^ 32
  sections : ∀ size ∈ header.sections.toList, size < 2 ^ 32

theorem Header.length_encode (header : Header) : header.encode.length = headerSize := by
  have hmagic : imageMagic.length = 4 := by decide
  simp [encode, hmagic, headerSize, SectionSizes.toList]

theorem Header.reads_encode (h : header.Narrow) : Reads reader header.encode header := by
  obtain ⟨version, versionId, nameOffset, tables, strings, blobs, userStrings, bodies⟩ := header
  have hsections := h.sections
  simp only [SectionSizes.toList, List.forall_mem_cons] at hsections
  obtain ⟨htables, hstrings, hblobs, huserStrings, hbodies, -⟩ := hsections
  unfold encode
  simp only [SectionSizes.toList, List.flatMap_cons, List.flatMap_nil, List.append_nil, List.append_assoc]
  refine (Reads.bytes_of_length (by decide)).bind ?_
  rw [if_neg (not_not.mpr rfl)]
  have hreserved : Reads (Reader.bytes 2) [0, 0] [0, 0] := Reads.bytes_of_length rfl
  exact (Reads.number h.version).bind (hreserved.bind ((Reads.vector versionId).bind
    ((Reads.number h.nameOffset).bind ((Reads.number htables).bind ((Reads.number hstrings).bind
      ((Reads.number hblobs).bind ((Reads.number huserStrings).bind ((Reads.number hbodies).map (Reads.pure _)))))))))

/-- The header is found in front of sections that have the sizes that it names. -/
theorem Header.parse_append {sections : Bytes} (h : header.Narrow)
    (hlength : header.sections.toList.sum = sections.length) : parse (header.encode ++ sections) = .ok header := by
  have hsum : header.imageSize = headerSize + header.sections.toList.sum := List.foldl_eq_apply_foldr
  have himage : header.imageSize = (header.encode ++ sections).length := by
    rw [hsum, hlength, List.length_append, length_encode]
  unfold parse
  rw [show reader.run (header.encode ++ sections) = .ok (header, sections) from reads_encode h sections]
  exact if_pos himage

end Headers

section Restoring

variable {module : Module} {bodies : Bodies} {layout : Layout}

/-- What a module can hold so that it is found again: names end at a zero, and lengths are below the
greatest compressed one. -/
structure Storable (module : Module) : Prop where
  name : '\x00' ∉ module.name.toList
  rows : (Content.tables module).Readable
  userStrings : ∀ value ∈ module.userStrings, (utf16 value).length + 1 < 2 ^ 29

/-- The image says everything that the module holds. -/
structure StoredImage.Restores (stored : StoredImage) (module : Module) : Prop where
  version : stored.header.version = imageVersion
  versionId : stored.header.versionId = module.versionId
  name : stored.name = module.name
  tables : List.Forall₂ (fun table entry => entry.1 = table ∧
    List.Forall₂ (StoredAs (BodyAt stored.bodies)) (rowsOf module table) entry.2) (Content.present module) stored.tables
  userStrings : stored.userStrings = module.userStrings.toList

/-- The sections of a layout, as a reader finds them. -/
def Layout.parts (layout : Layout) : Sections where
  tables := layout.written.rows.padToFour 0
  strings := layout.written.strings.finish
  blobs := layout.written.blobs.finish
  userStrings := layout.userStrings.finish
  bodies := layout.bodies

theorem Layout.reads_sections (layout : Layout) :
    Reads (Sections.reader layout.sizes) layout.sections.flatten layout.parts := by
  simp only [Layout.sections, List.flatten_cons, List.flatten_nil]
  exact (Reads.bytes _).bind ((Reads.bytes _).bind ((Reads.bytes _).bind ((Reads.bytes _).bind
    ((Reads.bytes _).bind (Reads.pure _)))))

theorem Layout.sum_sizes (layout : Layout) : layout.sizes.toList.sum = layout.sections.flatten.length := by
  rw [List.length_flatten]
  rfl

/-- Each section is filled up. -/
theorem Layout.Made.aligned (h : layout.Made module bodies) : ∀ size ∈ layout.sizes.toList, 4 ∣ size := by
  have halign : ∀ n, 4 ∣ Bytes.alignFour n := fun n => Nat.dvd_of_mod_eq_zero (Bytes.alignFour_mod n)
  have hbodies : 4 ∣ layout.bodies.length := by
    rw [length_layBodies h.bodies]
    refine List.dvd_sum fun size hs => ?_
    obtain ⟨body, -, rfl⟩ := List.mem_map.mp hs
    exact halign _
  simp only [Layout.sizes, SectionSizes.toList, List.forall_mem_cons, List.not_mem_nil, false_implies, implies_true,
    and_true, length_padToFour, length_finish]
  exact ⟨halign _, halign _, halign _, halign _, hbodies⟩

theorem Layout.Of.narrow (h : layout.Of module bodies) : (layout.header module).Narrow where
  version := (by decide : imageVersion < 2 ^ 16)
  nameOffset := (placed_string Heap.holds_empty h.named).offset_lt
  sections := by
    have hlimited : ∀ size ∈ layout.sections.map List.length, size < 2 ^ 32 := List.forall_mem_map.mpr h.limited
    exact hlimited

theorem prefix_padToFour (fill : UInt8) (bytes : Bytes) : bytes <+: bytes.padToFour fill := List.prefix_append _ _

/-- The name is found behind the tables, among the strings as they are in the end. -/
theorem Layout.moduleName (hnamed : StringHeap.add {} module.name = .ok (layout.nameOffset, layout.named))
    (hgrows : layout.named.bytes <+: layout.written.strings.bytes) (hzero : '\x00' ∉ module.name.toList) :
    (layout.header module).moduleName (layout.image module) = .ok module.name := by
  have hslice : (layout.image module).slice? (headerSize + (layout.header module).sections.tables)
      (headerSize + (layout.header module).sections.tables + (layout.header module).sections.strings) =
      some layout.parts.strings := by
    have hfound := Bytes.slice?_append ((layout.header module).encode ++ layout.parts.tables) layout.parts.strings
      (layout.parts.blobs ++ (layout.parts.userStrings ++ (layout.parts.bodies ++ [])))
    rw [List.length_append, Header.length_encode, List.append_assoc] at hfound
    exact hfound
  have hentered : stringEntry module.name <+: layout.written.strings.finish.drop layout.nameOffset :=
    (placed_string Heap.holds_empty hnamed).entered.trans
      ((hgrows.trans (prefix_padToFour _ _)).drop layout.nameOffset)
  unfold Header.moduleName
  dsimp only
  rw [hslice]
  exact textAt_of_entered hzero hentered

/-- Whoever reads the image of a module by its layout finds the module again: the header with aligned
sections that make up the image, the rows with the encodings of their signatures and the places of their
bodies, and the user strings. Where the module was built by additions, its types are found as they are. -/
theorem read_written {written : Written} (hfit : module.RowsFit) (hs : Storable module)
    (hw : write module = .ok written) :
    ∃ stored, readImage written.image = .ok stored ∧ stored.Restores module ∧
      Header.parse written.image = .ok stored.header ∧
      stored.header.moduleName written.image = .ok module.name ∧
      (∀ size ∈ stored.header.sections.toList, 4 ∣ size) ∧
      headerSize + stored.header.sections.toList.sum = written.image.length ∧
      (module.Built → ∀ type ∈ module.typeDefs, type.stored = type) := by
  have hown := Module.ownsTokens_iff.mpr (hfit .methodDef)
  obtain ⟨bodies, hb, himage, -⟩ := write_eq_ok hown hw
  obtain ⟨layout, hl, himage⟩ := writeImage_eq_ok.mp himage
  have hnamed := placed_string Heap.holds_empty hl.named
  have hplaced : Recorded.BodiesPlaced module layout.bodyOffset (BodyAt layout.bodies) := fun row hr =>
    hl.bodyAt hown hb hr
  have hrecords := Recorded.tables hplaced hs.rows { strings := layout.named } layout.written
    ⟨hnamed.holds, Heap.holds_empty⟩ hl.written
  obtain ⟨piece, rows, hpiece, hrows, hread⟩ := hrecords.read
  have hparse : Header.parse written.image = .ok (layout.header module) := by
    rw [← himage]
    exact Header.parse_append hl.narrow layout.sum_sizes
  have hname : (layout.header module).moduleName written.image = .ok module.name := by
    rw [← himage]
    exact Layout.moduleName hl.named hrecords.strings hs.name
  have hsections : (Sections.reader (layout.header module).sections).run (written.image.drop headerSize) =
      .ok (layout.parts, []) := by
    rw [← himage, Layout.image, ← Header.length_encode (layout.header module), List.drop_left]
    exact layout.reads_sections.run
  have htables := hread ⟨layout.parts.strings, layout.parts.blobs⟩ (prefix_padToFour _ _) (prefix_padToFour _ _)
    (List.replicate (Bytes.alignFour layout.written.rows.length - layout.written.rows.length) 0)
  rw [← List.nil_append piece, ← show layout.written.rows = [] ++ piece from hpiece] at htables
  refine ⟨⟨layout.header module, module.name, rows, userStringsOf layout.parts.userStrings, layout.bodies⟩, ?_, ?_,
    hparse, hname, hl.aligned, ?_, fun hbuilt type ht => TypeDef.stored_eq (hbuilt.linked type ht)⟩
  · exact bind_eq_ok.mpr ⟨_, hparse, bind_eq_ok.mpr ⟨_, hname, bind_eq_ok.mpr ⟨_, hsections,
      bind_eq_ok.mpr ⟨_, htables, rfl⟩⟩⟩⟩
  · refine ⟨rfl, rfl, rfl, hrows, userStringsOf_finish hl.userStrings fun value hv => ?_⟩
    exact hs.userStrings value (Array.mem_toList_iff.mp hv)
  · rw [← himage, Layout.image, List.length_append, Header.length_encode, ← layout.sum_sizes]
    rfl

end Restoring

section Sample

/-- A module with a derived type, of whose two methods one has a body, and with a user string. -/
def storedSample : Module :=
  let referring := (Module.addTypeRef { name := "Game" } ⟨.assembly "mscorlib", ⟨"System", "Object"⟩⟩).2
  let typed := referring.withType { name := ⟨"Game", "Player"⟩, base := some (.ofRow .typeRef 1), generics := ["T"] }
  let running := typed.withMethod
    { owner := .ofRow .typeDef 1, name := "Run", flags := .static, body := some { instructions := [{ opcode := .ret }] } }
  let waiting := running.withMethod { owner := .ofRow .typeDef 1, name := "Wait", sig := { params := [.typeParam 0] } }
  (waiting.addUserString "été 😀").2

theorem storable_storedSample : Storable storedSample :=
  ⟨by decide +kernel, ⟨by decide +kernel, by decide +kernel⟩, by decide +kernel⟩

theorem rowsFit_storedSample : storedSample.RowsFit := by
  intro table
  cases table <;> decide +kernel

theorem write_storedSample : ∃ written, write storedSample = .ok written := by
  have hok : (write storedSample).isOk = true := by decide +kernel
  rcases hw : write storedSample with error | written
  · rw [hw] at hok
    cases hok
  · exact ⟨written, rfl⟩

theorem built_storedSample : storedSample.Built :=
  .addUserString ((((Module.Built.new "Game" _).addTypeRef _).withType _).withMethod _ |>.withMethod _) _

theorem read_written_storedSample : storedSample.RowsFit ∧ Storable storedSample ∧ storedSample.Built ∧
    ∃ written, write storedSample = .ok written ∧ ∃ stored, readImage written.image = .ok stored ∧
      stored.Restores storedSample ∧ Header.parse written.image = .ok stored.header ∧
      stored.header.moduleName written.image = .ok storedSample.name ∧
      (∀ size ∈ stored.header.sections.toList, 4 ∣ size) ∧
      headerSize + stored.header.sections.toList.sum = written.image.length ∧
      (storedSample.Built → ∀ type ∈ storedSample.typeDefs, type.stored = type) := by
  obtain ⟨written, hw⟩ := write_storedSample
  exact ⟨rowsFit_storedSample, storable_storedSample, built_storedSample, written, hw,
    read_written rowsFit_storedSample storable_storedSample hw⟩

end Sample
end Image
end HotPatch
