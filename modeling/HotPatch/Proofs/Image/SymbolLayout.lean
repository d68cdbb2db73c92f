import HotPatch.Image.SymbolFile
import HotPatch.Proofs.Bytes.Recognition

/-!
# The layout of symbol files

A layout has every field of a stored symbol file, also those that reading does
not keep: the version, the reserved field, and which byte other than zero marks
a hidden span. Parsing accepts exactly the bytes of layouts. Less than these
bytes is out of bounds, and more leaves trailing bytes.
-/

namespace HotPatch.Image

/-- A source span as it is stored. -/
structure StoredSpan where
  offset : UInt32
  document : UInt32
  startLine : UInt32
  startColumn : UInt16
  endLine : UInt32
  endColumn : UInt16
  hidden : UInt8
  deriving DecidableEq, Repr

namespace StoredSpan

def bytes (stored : StoredSpan) : Bytes :=
  Bytes.littleEndian 4 stored.offset.toNat ++ (Bytes.littleEndian 4 stored.document.toNat ++
    (Bytes.littleEndian 4 stored.startLine.toNat ++ (Bytes.littleEndian 2 stored.startColumn.toNat ++
      (Bytes.littleEndian 4 stored.endLine.toNat ++ (Bytes.littleEndian 2 stored.endColumn.toNat ++
        Bytes.littleEndian 1 stored.hidden.toNat)))))

/-- The offset and the span. Any byte but zero hides it. -/
def span (stored : StoredSpan) : Nat × Code.SequencePoint :=
  (stored.offset.toNat, {
    document := stored.document
    startLine := stored.startLine
    startColumn := stored.startColumn
    endLine := stored.endLine
    endColumn := stored.endColumn
    isHidden := stored.hidden != 0 })

/-- The same but for the byte that hides a span. -/
structure Alike (first second : StoredSpan) : Prop where
  shown : second = { first with hidden := second.hidden }
  hidden : first.hidden = 0 ↔ second.hidden = 0

theorem span_eq_iff {first second : StoredSpan} : first.span = second.span ↔ first.Alike second := by
  rcases first with ⟨offset, document, startLine, startColumn, endLine, endColumn, hidden⟩
  rcases second with ⟨offset', document', startLine', startColumn', endLine', endColumn', hidden'⟩
  have hbyte : (hidden != 0) = (hidden' != 0) ↔ (hidden = 0 ↔ hidden' = 0) := by
    rw [Bool.eq_iff_iff, bne_iff_ne, bne_iff_ne]
    exact not_iff_not
  simp only [span, Prod.mk.injEq, UInt32.toNat_inj, Code.SequencePoint.mk.injEq, hbyte]
  constructor
  · rintro ⟨rfl, rfl, rfl, rfl, rfl, rfl, hsame⟩
    exact ⟨rfl, hsame⟩
  · rintro ⟨hshown, hsame⟩
    cases hshown
    exact ⟨rfl, rfl, rfl, rfl, rfl, rfl, hsame⟩

end StoredSpan

/-- The spans of a method as they are stored. -/
structure StoredSymbols where
  method : UInt32
  spans : Counted StoredSpan

namespace StoredSymbols

def bytes (stored : StoredSymbols) : Bytes :=
  Bytes.littleEndian 4 stored.method.toNat ++ stored.spans.bytes StoredSpan.bytes

def symbols (stored : StoredSymbols) : MethodSymbols := ⟨⟨stored.method⟩, stored.spans.val.map StoredSpan.span⟩

structure Alike (first second : StoredSymbols) : Prop where
  method : first.method = second.method
  spans : List.Forall₂ StoredSpan.Alike first.spans.val second.spans.val

end StoredSymbols

/-- The name of a document, which is stored behind the number of its bytes. -/
abbrev DocumentName := { name : String // (Bytes.ofText name).length < 2 ^ 32 }

def DocumentName.bytes (name : DocumentName) : Bytes :=
  Bytes.littleEndian 4 (Bytes.ofText name.val).length ++ Bytes.ofText name.val

/-- All fields of a symbol file in their order. -/
structure SymbolLayout where
  version : UInt16
  reserved : UInt16
  digest : Digest
  versionId : VersionId
  documents : Counted DocumentName
  methods : Counted StoredSymbols

namespace SymbolLayout

def bytes (layout : SymbolLayout) : Bytes :=
  symbolMagic ++ (Bytes.littleEndian 2 layout.version.toNat ++ (Bytes.littleEndian 2 layout.reserved.toNat ++
    (layout.digest.toList ++ (layout.versionId.toList ++
      (layout.documents.bytes DocumentName.bytes ++ layout.methods.bytes StoredSymbols.bytes)))))

/-- What the layout says. -/
def file (layout : SymbolLayout) : SymbolFile where
  digest := layout.digest
  versionId := layout.versionId
  documents := layout.documents.val.map (·.val)
  methods := layout.methods.val.map StoredSymbols.symbols

/-- The same but for the version, the reserved field and the bytes that hide spans. -/
structure Alike (first second : SymbolLayout) : Prop where
  digest : first.digest = second.digest
  versionId : first.versionId = second.versionId
  documents : first.documents = second.documents
  methods : List.Forall₂ StoredSymbols.Alike first.methods.val second.methods.val

end SymbolLayout

section Alike

/-- Two lists have the same image if their members have, one by one. -/
theorem map_eq_map_iff_forall₂ {ι α : Type} {f : ι → α} {related : ι → ι → Prop} (h : ∀ {i j}, f i = f j ↔ related i j)
    {first second : List ι} : first.map f = second.map f ↔ List.Forall₂ related first second := by
  have hrelated : related = fun i j => f i = f j := funext₂ fun i j => propext h.symm
  rw [← List.forall₂_eq_eq_eq, List.forall₂_map_left_iff, List.forall₂_map_right_iff, hrelated]

theorem StoredSymbols.symbols_eq_iff {first second : StoredSymbols} :
    first.symbols = second.symbols ↔ first.Alike second := by
  rw [symbols, symbols, MethodSymbols.mk.injEq, Token.mk.injEq, map_eq_map_iff_forall₂ StoredSpan.span_eq_iff]
  exact ⟨fun ⟨hmethod, hspans⟩ => ⟨hmethod, hspans⟩, fun ⟨hmethod, hspans⟩ => ⟨hmethod, hspans⟩⟩

theorem SymbolLayout.file_eq_iff {first second : SymbolLayout} : first.file = second.file ↔ first.Alike second := by
  have hdocuments : first.documents.val.map (·.val) = second.documents.val.map (·.val) ↔
      first.documents = second.documents := by
    rw [Subtype.ext_iff]
    exact (List.map_injective_iff.mpr Subtype.val_injective).eq_iff
  rw [file, file, SymbolFile.mk.injEq, hdocuments, map_eq_map_iff_forall₂ StoredSymbols.symbols_eq_iff]
  exact ⟨fun ⟨hdigest, hversionId, hnames, hmethods⟩ => ⟨hdigest, hversionId, hnames, hmethods⟩,
    fun ⟨hdigest, hversionId, hnames, hmethods⟩ => ⟨hdigest, hversionId, hnames, hmethods⟩⟩

end Alike

namespace SymbolFile

section Recognition

open Recognizes (word halfWord byte)

theorem recognizes_document : Recognizes documentReader DocumentName.bytes (·.val) := by
  intro input name rest
  refine Reader.bind_eq_ok.trans ⟨?_, ?_⟩
  · rintro ⟨length, middle, hlength, hrun⟩
    obtain ⟨text, last, htext, hname⟩ := Reader.bind_eq_ok.mp hrun
    obtain ⟨hshort, rfl⟩ := Recognizes.number_eq_ok.mp hlength
    obtain ⟨rfl, rfl⟩ := Recognizes.bytes_eq_ok.mp htext
    rcases hdecoded : text.toText? with - | decoded <;> rw [hdecoded] at hname <;> cases hname
    obtain rfl := Bytes.toText?_eq_some.mp hdecoded
    exact ⟨⟨name, hshort⟩, rfl, by rw [DocumentName.bytes, List.append_assoc]⟩
  · rintro ⟨⟨name, hshort⟩, rfl, rfl⟩
    refine ⟨_, _, Recognizes.number_eq_ok.mpr ⟨hshort, ?_⟩, Reader.bind_eq_ok.mpr ⟨_, _, Reads.bytes _ rest, ?_⟩⟩
    · rw [DocumentName.bytes, List.append_assoc]
    · rw [Bytes.toText?_ofText]
      rfl

theorem recognizes_point : Recognizes pointReader StoredSpan.bytes StoredSpan.span := by
  intro input span rest
  have hhidden : ∀ hidden : UInt8, (hidden.toNat != 0) = (hidden != 0) := fun hidden => by
    rw [Bool.eq_iff_iff, bne_iff_ne, bne_iff_ne, ne_eq, ne_eq, ← UInt8.toNat_inj]
    rfl
  simp only [pointReader, word.bind_eq_ok, halfWord.bind_eq_ok, byte.bind_eq_ok, Reader.pure_eq_ok,
    UInt32.ofNat_toNat, UInt16.ofNat_toNat, hhidden]
  constructor
  · rintro ⟨offset, _, rfl, document, _, rfl, startLine, _, rfl, startColumn, _, rfl, endLine, _, rfl,
      endColumn, _, rfl, hidden, _, rfl, rfl, rfl⟩
    refine ⟨⟨offset, document, startLine, startColumn, endLine, endColumn, hidden⟩, rfl, ?_⟩
    simp only [StoredSpan.bytes, List.append_assoc]
  · rintro ⟨stored, rfl, rfl⟩
    refine ⟨stored.offset, _, ?_, stored.document, _, rfl, stored.startLine, _, rfl, stored.startColumn, _, rfl,
      stored.endLine, _, rfl, stored.endColumn, _, rfl, stored.hidden, rest, rfl, rfl, rfl⟩
    simp only [StoredSpan.bytes, List.append_assoc]

theorem recognizes_method : Recognizes methodReader StoredSymbols.bytes StoredSymbols.symbols := by
  intro input symbols rest
  simp only [methodReader, word.bind_eq_ok, recognizes_point.counted.bind_eq_ok, Reader.pure_eq_ok,
    UInt32.ofNat_toNat]
  constructor
  · rintro ⟨method, _, rfl, spans, _, rfl, rfl, rfl⟩
    exact ⟨⟨method, spans⟩, rfl, by rw [StoredSymbols.bytes, List.append_assoc]⟩
  · rintro ⟨stored, rfl, rfl⟩
    exact ⟨stored.method, _, by rw [StoredSymbols.bytes, List.append_assoc], stored.spans, rest, rfl, rfl, rfl⟩

theorem recognizes_file : Recognizes reader SymbolLayout.bytes SymbolLayout.file := by
  intro input file rest
  refine Reader.bind_eq_ok.trans ⟨?_, ?_⟩
  · rintro ⟨magic, middle, hmagic, h⟩
    obtain ⟨-, rfl⟩ := Recognizes.bytes_eq_ok.mp hmagic
    split_ifs at h with hne
    · cases h
    obtain rfl := not_not.mp hne
    simp only [halfWord.bind_eq_ok, (Recognizes.vector _).bind_eq_ok, recognizes_document.counted.bind_eq_ok,
      recognizes_method.counted.bind_eq_ok, Reader.pure_eq_ok] at h
    obtain ⟨version, _, rfl, reserved, _, rfl, digest, _, rfl, versionId, _, rfl, documents, _, rfl, methods, _,
      rfl, rfl, rfl⟩ := h
    refine ⟨⟨version, reserved, digest, versionId, documents, methods⟩, rfl, ?_⟩
    simp only [SymbolLayout.bytes, List.append_assoc]
  · rintro ⟨layout, rfl, rfl⟩
    simp only [SymbolLayout.bytes, List.append_assoc]
    refine ⟨symbolMagic, _, Reads.bytes_of_length (by decide) _, ?_⟩
    rw [if_neg (not_not.mpr rfl)]
    simp only [halfWord.bind_eq_ok, (Recognizes.vector _).bind_eq_ok, recognizes_document.counted.bind_eq_ok,
      recognizes_method.counted.bind_eq_ok, Reader.pure_eq_ok]
    exact ⟨layout.version, _, rfl, layout.reserved, _, rfl, layout.digest, _, rfl, layout.versionId, _, rfl,
      layout.documents, _, rfl, layout.methods, rest, rfl, rfl, rfl⟩

end Recognition

section Steady

theorem steady_document : Steady documentReader :=
  (Steady.number 4).bind fun length => (Steady.bytes length).bind fun text => by
    cases text.toText? with
    | none => exact Steady.fail _
    | some name => exact Steady.pure name

theorem steady_point : Steady pointReader :=
  (Steady.number 4).bind fun _ => (Steady.number 4).bind fun _ => (Steady.number 4).bind fun _ =>
    (Steady.number 2).bind fun _ => (Steady.number 4).bind fun _ => (Steady.number 2).bind fun _ =>
      (Steady.number 1).bind fun _ => Steady.pure _

theorem steady_method : Steady methodReader :=
  (Steady.number 4).bind fun _ => steady_point.counted.bind fun _ => Steady.pure _

theorem steady_file : Steady reader := by
  refine (Steady.bytes 4).bind fun magic => ?_
  split_ifs
  · exact Steady.fail _
  · exact (Steady.number 2).bind fun _ => (Steady.number 2).bind fun _ => (Steady.vector 20).bind fun _ =>
      (Steady.vector 16).bind fun _ => steady_document.counted.bind fun _ =>
        steady_method.counted.bind fun _ => Steady.pure _

end Steady

section Parse

variable {bytes : Bytes} {file : SymbolFile}

/-- Parsing reads everything. -/
theorem parse_eq_ok : parse bytes = .ok file ↔ reader bytes = .ok (file, []) := by
  refine bind_eq_ok.trans ⟨?_, fun h => ⟨(file, []), h, rfl⟩⟩
  rintro ⟨⟨found, rest⟩, hread, hfile⟩
  dsimp only at hfile
  split_ifs at hfile with hrest
  · cases hfile
    rwa [List.isEmpty_iff.mp hrest] at hread
  · cases hfile

theorem parse_eq_ok_iff_layout :
    parse bytes = .ok file ↔ ∃ layout : SymbolLayout, layout.bytes = bytes ∧ layout.file = file := by
  rw [parse_eq_ok, recognizes_file]
  simp only [List.append_nil, eq_comm (a := bytes), and_comm]

theorem parse_of_error {error : Error} (h : reader bytes = .error error) : parse bytes = .error error := by
  change (reader bytes >>= _) = _
  rw [h]
  rfl

theorem parse_of_rest {rest : Bytes} (h : reader bytes = .ok (file, rest)) (hrest : rest ≠ []) :
    parse bytes = malformed (.trailingBytes rest.length) := by
  change (reader bytes >>= _) = _
  rw [h]
  exact if_neg (mt List.isEmpty_iff.mp hrest)

/-- Parsing accepts exactly the bytes of layouts. Bytes that are read as the same file have layouts that
differ in what reading leaves out and nowhere else. What is cut short is out of bounds, and bytes behind the
end are reported. -/
theorem parse_accepts (bytes : Bytes) (file : SymbolFile) :
    (parse bytes = .ok file ↔ ∃ layout : SymbolLayout, layout.bytes = bytes ∧ layout.file = file) ∧
      (parse bytes = .ok file →
        (∀ other, parse other = .ok file ↔ ∃ layout layout' : SymbolLayout, layout.bytes = bytes ∧
          layout'.bytes = other ∧ layout.Alike layout') ∧
        (∀ front more, more ≠ [] → front ++ more = bytes → parse front = .error .outOfBounds) ∧
        ∀ more, more ≠ [] → parse (bytes ++ more) = malformed (.trailingBytes more.length)) := by
  refine ⟨parse_eq_ok_iff_layout, fun h => ⟨fun other => ?_, fun front more hmore hbytes => ?_, fun more hmore => ?_⟩⟩
  · constructor
    · intro hother
      obtain ⟨layout, hlayout, hfile⟩ := parse_eq_ok_iff_layout.mp h
      obtain ⟨layout', hlayout', hfile'⟩ := parse_eq_ok_iff_layout.mp hother
      exact ⟨layout, layout', hlayout, hlayout', SymbolLayout.file_eq_iff.mp (hfile.trans hfile'.symm)⟩
    · rintro ⟨layout, layout', rfl, rfl, halike⟩
      have hfile : layout.file = file := Except.ok.inj ((parse_eq_ok_iff_layout.mpr ⟨layout, rfl, rfl⟩).symm.trans h)
      exact parse_eq_ok_iff_layout.mpr ⟨layout', rfl, (SymbolLayout.file_eq_iff.mpr halike).symm.trans hfile⟩
  · subst hbytes
    exact parse_of_error (steady_file.cut (parse_eq_ok.mp h) hmore)
  · exact parse_of_rest (steady_file.ok (parse_eq_ok.mp h) more) hmore

/-- A layout of another version, with a value in the reserved field and a span that a two hides. -/
def oddLayout : SymbolLayout where
  version := 7
  reserved := 9
  digest := .replicate 20 0xAB
  versionId := .replicate 16 0xCD
  documents := ⟨[⟨"Box.cs", by decide⟩, ⟨"", by decide⟩], by decide⟩
  methods := ⟨[⟨0x06000001, ⟨[⟨0, 0, 3, 1, 3, 9, 0⟩, ⟨4, 1, 0xFEEFEE, 0, 0xFEEFEE, 0, 2⟩], by decide⟩⟩], by decide⟩

/-- The layout that is written for the same file. -/
def plainLayout : SymbolLayout :=
  { oddLayout with
    version := 1
    reserved := 0
    methods := ⟨[⟨0x06000001, ⟨[⟨0, 0, 3, 1, 3, 9, 0⟩, ⟨4, 1, 0xFEEFEE, 0, 0xFEEFEE, 0, 1⟩], by decide⟩⟩], by decide⟩ }

theorem parse_accepts_oddLayout : parse oddLayout.bytes = .ok oddLayout.file ∧
    parse oddLayout.file.encode = .ok oddLayout.file ∧
    parse oddLayout.bytes.dropLast = .error .outOfBounds ∧
    parse (oddLayout.bytes ++ [0]) = malformed (.trailingBytes 1) := by
  have hparse := (parse_accepts oddLayout.bytes oddLayout.file).1.mpr ⟨oddLayout, rfl, rfl⟩
  obtain ⟨hsame, hcut, hmore⟩ := (parse_accepts oddLayout.bytes oddLayout.file).2 hparse
  have halike : oddLayout.Alike plainLayout := SymbolLayout.file_eq_iff.mp rfl
  refine ⟨hparse, (hsame _).mpr ⟨oddLayout, plainLayout, rfl, ?_, halike⟩, hcut _ [2] (by decide) ?_,
    hmore [0] (by decide)⟩
  · decide +kernel
  · decide +kernel

end Parse
end SymbolFile
end HotPatch.Image
