import HotPatch.Image.SymbolFile
import HotPatch.Proofs.Bytes.Reading

/-!
# Reading symbol files back

A symbol file whose counts and offsets fit into 32 bits is read back from its
encoding as it was.
-/

namespace HotPatch.Image.SymbolFile

/-- All numbers of the file fit into the 32 bits that they are written in. -/
structure Narrow (file : SymbolFile) : Prop where
  documents : file.documents.length < 2 ^ 32
  names : ∀ name ∈ file.documents, (Bytes.ofText name).length < 2 ^ 32
  methods : file.methods.length < 2 ^ 32
  points : ∀ symbols ∈ file.methods, symbols.points.length < 2 ^ 32
  offsets : ∀ symbols ∈ file.methods, ∀ span ∈ symbols.points, span.1 < 2 ^ 32

theorem reads_document {name : String} (h : (Bytes.ofText name).length < 2 ^ 32) :
    Reads documentReader (encodeDocument name) name := by
  refine (Reads.number h).bind ((Reads.bytes _).map ?_)
  rw [Bytes.toText?_ofText]
  exact Reads.pure name

theorem reads_hidden (hidden : Bool) : Reads (Reader.number 1) [hidden.toUInt8] hidden.toNat := by
  have hbyte : [hidden.toUInt8] = Bytes.littleEndian 1 hidden.toNat := by cases hidden <;> rfl
  rw [hbyte]
  exact Reads.number (by cases hidden <;> decide)

theorem reads_point {offset : Nat} (h : offset < 2 ^ 32) (point : Code.SequencePoint) :
    Reads pointReader (encodePoint offset point) (offset, point) := by
  unfold encodePoint
  simp only [List.append_assoc]
  refine (Reads.number h).bind ((Reads.number point.document.toNat_lt).bind
    ((Reads.number point.startLine.toNat_lt).bind ((Reads.number point.startColumn.toNat_lt).bind
      ((Reads.number point.endLine.toNat_lt).bind ((Reads.number point.endColumn.toNat_lt).bind
        ((reads_hidden point.isHidden).map ?_))))))
  have hhidden : (point.isHidden.toNat != 0) = point.isHidden := by cases point.isHidden <;> rfl
  simp only [UInt32.ofNat_toNat, UInt16.ofNat_toNat, hhidden]
  exact Reads.pure (offset, point)

theorem reads_method {symbols : MethodSymbols} (hlength : symbols.points.length < 2 ^ 32)
    (hoffsets : ∀ span ∈ symbols.points, span.1 < 2 ^ 32) :
    Reads methodReader (encodeMethod symbols) symbols := by
  unfold encodeMethod
  rw [List.append_assoc]
  have hpoints := Reads.counted_map (fun span hs => reads_point (hoffsets span hs) span.2) hlength
  refine (Reads.number symbols.method.value.toNat_lt).bind (hpoints.map ?_)
  rw [UInt32.ofNat_toNat]
  exact Reads.pure symbols

theorem reads_encode {file : SymbolFile} (h : file.Narrow) : Reads reader file.encode file := by
  have hdocuments := Reads.counted_map (fun name hn => reads_document (h.names name hn)) h.documents
  have hmethods := Reads.counted_map
    (fun symbols hs => reads_method (h.points symbols hs) (h.offsets symbols hs)) h.methods
  unfold encode
  simp only [List.append_assoc]
  rw [← List.append_assoc _ (file.documents.flatMap encodeDocument)]
  refine (Reads.bytes_of_length (by decide)).bind ?_
  rw [if_neg (not_not.mpr rfl)]
  have hreserved : Reads (Reader.number 2) [0, 0] 0 := Reads.number (by decide)
  exact (Reads.number (by decide)).bind (hreserved.bind
    ((Reads.vector file.digest).bind ((Reads.vector file.versionId).bind
      (hdocuments.bind (hmethods.map (Reads.pure file))))))

/-- Nothing is lost, and nothing follows. -/
theorem parse_encode {file : SymbolFile} (h : file.Narrow) : parse file.encode = .ok file :=
  bind_eq_ok.mpr ⟨(file, []), (reads_encode h).run, rfl⟩

end HotPatch.Image.SymbolFile
