import HotPatch.Proofs.Image.Contents
import HotPatch.Proofs.Image.TableReader

/-!
# Rows are read as they were written

A piece of a table that was written is read back with whatever the heaps grow
into, as entries stay where they are. So what is written in turn is read in
turn, and each row is recovered with its names and with the blobs of its
signatures, as far as names hold no zero and blobs are short enough for their
lengths.
-/

namespace HotPatch.Image

/-- Names are free of zeros, and the lengths of blobs have a compressed form. -/
structure Content.Readable (content : Content) : Prop where
  strings : ∀ text ∈ content.strings, '\x00' ∉ text.toList
  blobs : ∀ blob ∈ content.encoded, blob.length < 2 ^ 29

/-- Both heaps hold the entries of their values. -/
structure TableWriter.Lawful (state : TableWriter) : Prop where
  strings : state.strings.Holds stringEntry
  blobs : state.blobs.Holds blobEntry

/-- A good value was written, which the reader finds with all heaps that those of the last state may
grow into. -/
structure TableWriter.Records {α : Type} (state next : TableWriter) (reader : Heaps → Reader α) (good : α → Prop) :
    Prop where
  lawful : next.Lawful
  strings : state.strings.bytes <+: next.strings.bytes
  blobs : state.blobs.bytes <+: next.blobs.bytes
  read : ∃ piece value, next.rows = state.rows ++ piece ∧ good value ∧
    ∀ heaps : Heaps, next.strings.bytes <+: heaps.strings → next.blobs.bytes <+: heaps.blobs →
      Reads (reader heaps) piece value

/-- The action writes a good value that the reader finds again. -/
def Recorded {α : Type} (action : WriteTables Unit) (content : Content) (reader : Heaps → Reader α)
    (good : α → Prop) : Prop :=
  content.Readable → ∀ state next, state.Lawful → action.run state = .ok ((), next) →
    state.Records next reader good

namespace Recorded

variable {α β : Type} {first second : WriteTables Unit} {content a b : Content} {reader : Heaps → Reader α}
  {good : α → Prop} {fine : β → Prop}

theorem readable_append : (a ++ b).Readable ↔ a.Readable ∧ b.Readable := by
  constructor
  · rintro ⟨hs, hb⟩
    rw [Content.strings_append, List.forall_mem_append] at hs
    rw [Content.encoded_append, List.forall_mem_append] at hb
    exact ⟨⟨hs.1, hb.1⟩, hs.2, hb.2⟩
  · rintro ⟨ha, hb⟩
    refine ⟨?_, ?_⟩
    · rw [Content.strings_append, List.forall_mem_append]
      exact ⟨ha.strings, hb.strings⟩
    · rw [Content.encoded_append, List.forall_mem_append]
      exact ⟨ha.blobs, hb.blobs⟩

theorem nothing {value : α} (hv : good value) : Recorded (pure ()) content (fun _ => pure value) good := by
  intro _ state next hs h
  cases h
  exact ⟨hs, List.prefix_refl _, List.prefix_refl _, [], value, (List.append_nil _).symm, hv, fun _ _ _ => .pure value⟩

theorem mono {better : α → Prop} (h : Recorded first content reader good) (hg : ∀ value, good value → better value) :
    Recorded first content reader better := by
  intro hreadable state next hs hr
  have hfirst := h hreadable state next hs hr
  obtain ⟨piece, value, hrows, hgood, hread⟩ := hfirst.read
  exact { hfirst with read := ⟨piece, value, hrows, hg value hgood, hread⟩ }

theorem bind {rest : α → Heaps → Reader β} (h : Recorded first a reader good)
    (h' : ∀ value, good value → Recorded second b (rest value) fine) :
    Recorded (do first; second) (a ++ b) (fun heaps => reader heaps >>= fun value => rest value heaps) fine := by
  intro hreadable state last hs hr
  obtain ⟨ha, hb⟩ := readable_append.mp hreadable
  obtain ⟨⟨⟩, middle, hf, hn⟩ := Writes.run_bind_eq_ok.mp hr
  have hfirst := h ha state middle hs hf
  obtain ⟨piece, value, hrows, hgood, hread⟩ := hfirst.read
  have hsecond := h' value hgood hb middle last hfirst.lawful hn
  obtain ⟨more, result, hmore, hfine, hread'⟩ := hsecond.read
  refine ⟨hsecond.lawful, hfirst.strings.trans hsecond.strings, hfirst.blobs.trans hsecond.blobs, piece ++ more, result,
    ?_, hfine, fun heaps hstrings hblobs => ?_⟩
  · rw [hmore, hrows, List.append_assoc]
  · exact (hread heaps (hsecond.strings.trans hstrings) (hsecond.blobs.trans hblobs)).bind (hread' heaps hstrings hblobs)

/-- The last step, behind which the value is made of what was read. -/
theorem last {change : α → β} (h : Recorded first content reader good)
    (hc : ∀ value, good value → fine (change value)) :
    Recorded first content (fun heaps => reader heaps >>= fun value => pure (change value)) fine := by
  intro hreadable state next hs hr
  have hfirst := h hreadable state next hs hr
  obtain ⟨piece, value, hrows, hgood, hread⟩ := hfirst.read
  exact { hfirst with
    read := ⟨piece, change value, hrows, hc value hgood, fun heaps hstrings hblobs =>
      (hread heaps hstrings hblobs).map (.pure _)⟩ }

theorem put {bytes : Bytes} {value : α} {reader : Reader α} (hread : Reads reader bytes value) :
    Recorded (WriteTables.put bytes) content (fun _ => reader) (· = value) := by
  intro _ state next hs h
  cases h
  refine ⟨⟨hs.strings, hs.blobs⟩, List.prefix_refl _, List.prefix_refl _, bytes, value, ?_, rfl, fun _ _ _ => hread⟩
  simp [TableWriter.rows]

theorem word {value : Nat} (h : value < 2 ^ 32) :
    Recorded (WriteTables.word value) content (fun _ => Reader.number 4) (· = value) :=
  put (.number h)

theorem half {value : Nat} (h : value < 2 ^ 16) :
    Recorded (WriteTables.half value) content (fun _ => Reader.number 2) (· = value) :=
  put (.number h)

theorem token (value : Token) :
    Recorded (WriteTables.token value) content (fun _ => Heaps.token) (· = value) := by
  refine (word value.value.toNat_lt).last ?_
  rintro _ rfl
  rw [UInt32.ofNat_toNat]

theorem optionalToken (value : Option Token) : Recorded (WriteTables.optionalToken value) content
    (fun _ => Heaps.optionalToken) (· = value.filter (!·.isNull)) := by
  rcases value with - | value
  · refine (token ⟨0⟩).last ?_
    rintro _ rfl
    rfl
  · refine (token value).last ?_
    rintro other rfl
    rw [Option.filter_some]
    cases other.isNull <;> rfl

theorem count (length : Nat) :
    Recorded (WriteTables.count length) content (fun _ => Reader.number 4) (· = length) := by
  intro hreadable state next hs h
  unfold WriteTables.count at h
  split_ifs at h with hlt
  · exact word hlt hreadable state next hs h
  · cases h

theorem name (value : String) :
    Recorded (WriteTables.string value) (Content.string value) Heaps.name (· = value) := by
  intro hreadable state next hs h
  obtain ⟨offset, strings, ha, rfl⟩ := Writes.run_string_eq_ok.mp h
  have hplaced := placed_string hs.strings ha
  refine ⟨⟨hplaced.holds, hs.blobs⟩, hplaced.grows, List.prefix_refl _, Bytes.littleEndian 4 offset, value, ?_, rfl,
    fun heaps hstrings _ => ?_⟩
  · simp [TableWriter.rows]
  · have htext := textAt_of_entered (hreadable.strings value (by simp [Content.string]))
      (hplaced.entered.trans (hstrings.drop offset))
    refine (Reads.number hplaced.offset_lt).map fun rest => ?_
    rw [htext]
    rfl

theorem blob (value : Result Bytes) :
    Recorded (WriteTables.blob value) (Content.blob value) Heaps.blob (value = .ok ·) := by
  intro hreadable state next hs h
  obtain ⟨bytes, offset, blobs, rfl, ha, rfl⟩ := Writes.run_blob_eq_ok.mp h
  have hplaced := placed_blob hs.blobs ha
  refine ⟨⟨hs.strings, hplaced.holds⟩, List.prefix_refl _, hplaced.grows, Bytes.littleEndian 4 offset, bytes, ?_, rfl,
    fun heaps _ hblobs => ?_⟩
  · simp [TableWriter.rows]
  · have hblob := blobAt?_of_entered (hreadable.blobs bytes (List.mem_singleton_self bytes))
      (hplaced.entered.trans (hblobs.drop offset))
    refine (Reads.number hplaced.offset_lt).map ?_
    rw [hblob]
    exact .pure bytes

section Lists

variable {items : List α} {step : α → WriteTables Unit} {contentOf : α → Content} {reader : Heaps → Reader β}
  {goodOf : α → β → Prop}

theorem forM (h : ∀ item ∈ items, Recorded (step item) (contentOf item) reader (goodOf item)) :
    Recorded (items.forM step) (Content.concat (items.map contentOf))
      (fun heaps => Reader.times items.length (reader heaps)) (List.Forall₂ goodOf items) := by
  induction items with
  | nil => exact nothing .nil
  | cons item items ih =>
    rw [List.forM_eq_forM, List.forM_cons, List.map_cons, Content.concat]
    refine (h item (by simp)).bind fun value hv => ?_
    exact (ih fun other ho => h other (by simp [ho])).last fun values hvs => .cons hv hvs

/-- Items whose readers depend on what is known of them. -/
theorem mapM {κ : Type} {key : α → κ} {readerOf : Heaps → κ → Reader β}
    (h : ∀ item ∈ items, Recorded (step item) (contentOf item) (readerOf · (key item)) (goodOf item)) :
    Recorded (items.forM step) (Content.concat (items.map contentOf))
      (fun heaps => (items.map key).mapM (readerOf heaps)) (List.Forall₂ goodOf items) := by
  induction items with
  | nil => exact nothing .nil
  | cons item items ih =>
    rw [List.forM_eq_forM, List.forM_cons, List.map_cons, Content.concat]
    simp only [List.map_cons, List.mapM_cons]
    refine (h item (by simp)).bind fun value hv => ?_
    exact (ih fun other ho => h other (by simp [ho])).last fun values hvs => .cons hv hvs

/-- A list behind its length. -/
theorem counted (h : ∀ item ∈ items, Recorded (step item) (contentOf item) reader (goodOf item)) :
    Recorded (do WriteTables.count items.length; items.forM step)
      (Content.bytes 4 ++ Content.concat (items.map contentOf)) (fun heaps => Reader.counted (reader heaps))
      (List.Forall₂ goodOf items) := by
  refine (count items.length).bind ?_
  rintro _ rfl
  exact forM h

theorem eq_map_of_forall₂ {change : α → β} {values : List β}
    (h : List.Forall₂ (fun item value => value = change item) items values) : values = items.map change := by
  induction h with
  | nil => rfl
  | cons hfirst _ ih => rw [List.map_cons, hfirst, ih]

end Lists

theorem names (values : List String) :
    Recorded (WriteTables.strings values) (Content.strings4 values) Heaps.names (· = values) :=
  (counted fun value _ => name value).mono fun _ h => (List.forall₂_eq_eq_eq ▸ h.flip : _)

theorem tokens (values : List Token) :
    Recorded (WriteTables.tokens values) (Content.tokens values) (fun _ => Heaps.tokens) (· = values) :=
  (counted fun value _ => token value).mono fun _ h => (List.forall₂_eq_eq_eq ▸ h.flip : _)

section Rows

theorem typeName (row : TypeName) :
    Recorded (WriteTables.typeName row) (Content.typeName row) Heaps.typeName (· = row) := by
  refine (name row.space).bind ?_
  rintro _ rfl
  refine (name row.simple).last ?_
  rintro _ rfl
  rfl

theorem scope (row : Scope) : Recorded (WriteTables.scope row) (Content.scope row) Heaps.scope (· = row) := by
  rcases row with text | enclosing
  · refine (put (.number (by decide : 0 < 256 ^ 1))).bind ?_
    rintro _ rfl
    refine (name text).last ?_
    rintro _ rfl
    rfl
  · refine (put (.number (by decide : 1 < 256 ^ 1))).bind ?_
    rintro _ rfl
    refine (token enclosing).last ?_
    rintro _ rfl
    rfl

theorem typeRef (row : TypeRef) :
    Recorded (WriteTables.typeRef row) (Content.typeRef row) Heaps.typeRef (· = row) := by
  refine (scope row.scope).bind ?_
  rintro _ rfl
  refine (typeName row.name).last ?_
  rintro _ rfl
  rfl

theorem typeDef (row : TypeDef) :
    Recorded (WriteTables.typeDef row) (Content.typeDef row) Heaps.typeDef (· = row.stored) := by
  refine (word row.flags.toNat_lt).bind ?_
  rintro _ rfl
  refine (typeName row.name).bind ?_
  rintro _ rfl
  refine (optionalToken row.base).bind ?_
  rintro _ rfl
  refine (optionalToken row.enclosing).bind ?_
  rintro _ rfl
  refine (names row.generics).bind ?_
  rintro _ rfl
  refine (tokens row.fields).bind ?_
  rintro _ rfl
  refine (tokens row.methods).last ?_
  rintro _ rfl
  rw [UInt32.ofNat_toNat]
  rfl

variable {placed : MethodDef → Nat → Prop}

theorem field (row : FieldDef) : Recorded (WriteTables.field row) (Content.field row) Heaps.field
    fun stored => StoredAs placed (.field row) (.field stored) := by
  refine (token row.owner).bind ?_
  rintro _ rfl
  refine (half row.flags.toNat_lt).bind ?_
  rintro _ rfl
  refine (name row.name).bind ?_
  rintro _ rfl
  refine (blob row.type.encodeField).last fun signature hs => ?_
  rw [UInt16.ofNat_toNat]
  exact .field hs

theorem method {row : MethodDef} {bodyOffset : Nat} (hlt : bodyOffset < 2 ^ 32) (hp : placed row bodyOffset) :
    Recorded (WriteTables.method bodyOffset row) (Content.method row) Heaps.method
      fun stored => StoredAs placed (.methodDef row) (.methodDef stored) := by
  refine (token row.owner).bind ?_
  rintro _ rfl
  refine (half row.flags.bits.toNat_lt).bind ?_
  rintro _ rfl
  refine (half row.implFlags.toNat_lt).bind ?_
  rintro _ rfl
  refine (name row.name).bind ?_
  rintro _ rfl
  refine (blob row.sig.encode).bind fun signature hs => ?_
  refine (names row.generics).bind ?_
  rintro _ rfl
  refine (word hlt).last ?_
  rintro _ rfl
  rw [UInt16.ofNat_toNat, UInt16.ofNat_toNat]
  exact .methodDef hs hp

theorem memberRef (row : MemberRef) : Recorded (WriteTables.memberRef row) (Content.memberRef row) Heaps.memberRef
    fun stored => StoredAs placed (.memberRef row) (.memberRef stored) := by
  refine (token row.parent).bind ?_
  rintro _ rfl
  refine (name row.name).bind ?_
  rintro _ rfl
  exact (blob row.sig.encode).last fun signature hs => .memberRef hs

theorem customAttribute (row : CustomAttribute) :
    Recorded (WriteTables.customAttribute row) (Content.customAttribute row) Heaps.customAttribute
      fun stored => StoredAs placed (.customAttribute row) (.customAttribute stored) := by
  refine (token row.parent).bind ?_
  rintro _ rfl
  refine (token row.constructor).bind ?_
  rintro _ rfl
  exact (blob row.value.encode).last fun value hv => .customAttribute hv

theorem methodSpec (row : MethodSpec) : Recorded (WriteTables.methodSpec row) (Content.methodSpec row)
    Heaps.methodSpec fun stored => StoredAs placed (.methodSpec row) (.methodSpec stored) := by
  refine (token row.method).bind ?_
  rintro _ rfl
  exact (blob _).last fun args ha => .methodSpec ha

end Rows

section Tables

variable {module : Module} {bodyOffset : Token → Nat} {placed : MethodDef → Nat → Prop}

/-- Each method is given the offset of its body. -/
def BodiesPlaced (module : Module) (bodyOffset : Token → Nat) (placed : MethodDef → Nat → Prop) : Prop :=
  ∀ row ∈ module.methodRows, bodyOffset row.1 < sizeLimit ∧ placed row.2 (bodyOffset row.1)

/-- The rows of one table. -/
theorem rows (h : BodiesPlaced module bodyOffset placed) (table : Table) :
    Recorded (WriteTables.table module bodyOffset table) (Content.concat (Content.rows module table))
      (fun heaps => Reader.times (module.rowCount table) (heaps.row table))
      (List.Forall₂ (StoredAs placed) (rowsOf module table)) := by
  have heach : ∀ {α : Type} {rows : Array α} {step : α → WriteTables Unit} {contentOf : α → Content}
      {wrap : α → Row},
      (∀ row, Recorded (step row) (contentOf row) (Heaps.row · table) (StoredAs placed (wrap row))) →
      Recorded (rows.toList.forM step) (Content.concat (rows.toList.map contentOf))
        (fun heaps => Reader.times rows.size (heaps.row table))
        (List.Forall₂ (StoredAs placed) (rows.toList.map wrap)) := by
    intro α rows step contentOf wrap hrow
    rw [← Array.length_toList]
    exact (forM fun row _ => hrow row).mono fun stored hs => List.forall₂_map_left_iff.mpr hs
  cases table with
  | typeRef =>
    refine heach fun row => (typeRef row).last ?_
    rintro _ rfl
    exact .typeRef _
  | typeDef =>
    refine heach fun row => (typeDef row).last ?_
    rintro _ rfl
    exact .typeDef _
  | field => exact heach fun row => (field row).last fun _ hs => hs
  | methodDef =>
    have hmethods : ∀ row ∈ module.methodRows, Recorded (WriteTables.method (bodyOffset row.1) row.2)
        (Content.method row.2) (Heaps.row · .methodDef) (StoredAs placed (.methodDef row.2)) := by
      intro row hr
      obtain ⟨hlt, hp⟩ := h row hr
      exact (method hlt hp).last fun _ hs => hs
    have hlength : module.methodRows.length = module.methods.size := by
      rw [← List.length_map (f := Prod.snd), Module.map_snd_methodRows, Array.length_toList]
    have hall := forM hmethods
    rw [hlength, Content.map_methodRows] at hall
    refine hall.mono fun stored hs => ?_
    rw [rowsOf, ← Module.map_snd_methodRows, List.map_map]
    exact List.forall₂_map_left_iff.mpr hs
  | memberRef => exact heach fun row => (memberRef row).last fun _ hs => hs
  | customAttribute => exact heach fun row => (customAttribute row).last fun _ hs => hs
  | standAloneSig => exact heach fun row => (blob _).last fun _ hs => .locals hs
  | typeSpec => exact heach fun row => (blob _).last fun _ hs => .typeSpec hs
  | methodSpec => exact heach fun row => (methodSpec row).last fun _ hs => hs

theorem directoryEntry (table : Table) :
    Recorded (do WriteTables.put [.ofNat table.code]; WriteTables.count (module.rowCount table))
      (Content.bytes 1 ++ Content.count (module.rowCount table)) (fun _ => Heaps.directoryEntry)
      (· = (table, module.rowCount table)) := by
  have hcode : table.code < 256 ^ 1 := by cases table <;> decide
  refine (put (.number hcode)).bind ?_
  rintro _ rfl
  rw [Table.ofCode?_code]
  refine (count _).last ?_
  rintro _ rfl
  rfl

/-- The whole table section. -/
theorem tables (h : BodiesPlaced module bodyOffset placed) :
    Recorded (WriteTables.all module bodyOffset) (Content.tables module) Heaps.tables
      (List.Forall₂ (fun table stored => stored.1 = table ∧
        List.Forall₂ (StoredAs placed) (rowsOf module table) stored.2) (Content.present module)) := by
  have hpresent : (Content.present module).length < 256 ^ 1 :=
    Nat.lt_of_le_of_lt (List.length_filter_le _ _) (by decide)
  refine (put (.number hpresent)).bind ?_
  rintro _ rfl
  have hdirectory := @forM _ _ (Content.present module) _ _ _ _ fun table _ => @directoryEntry module table
  refine (hdirectory.mono fun directory hd => eq_map_of_forall₂ hd).bind ?_
  rintro _ rfl
  exact mapM fun table _ => (rows h table).last fun stored hs => ⟨rfl, hs⟩

end Tables
end Recorded
end HotPatch.Image
