import HotPatch.Proofs.Body.RegionReader

/-!
# Reading bodies

The two low bits of the first byte tell how a body is written. Behind a tiny
header, which is one byte with the size of the code, there is only the code. A
full header says everything itself, and whether a section of regions follows.
-/

namespace HotPatch

open Code

variable {body : Body} {code : EncodedCode} {encoded : EncodedBody}

/-- What a full header says. -/
structure StoredHeader where
  size : Nat
  moreSections : Bool
  initLocals : Bool
  maxStack : Nat
  codeSize : Nat
  locals : Nat
  deriving DecidableEq, Repr

/-- A body as it is written: its header unless that is a tiny one, its code, and its regions if a
section of them follows. -/
structure StoredBody where
  header? : Option StoredHeader
  code : Bytes
  regions? : Option StoredRegions
  deriving DecidableEq, Repr

/-- A full header behind its first byte. The top four bits of the flags count its words. -/
def readHeader (first : Nat) : Reader StoredHeader := do
  let second ← Reader.number 1
  let maxStack ← Reader.number 2
  let codeSize ← Reader.number 4
  let locals ← Reader.number 4
  let flags := first + 0x100 * second
  let size := flags / 0x1000 * 4
  let _ ← Reader.bytes (size - 12)
  return ⟨size, flags.testBit 3, flags.testBit 4, maxStack, codeSize, locals⟩

/-- What follows the code, as the header says. -/
def readSections (header : StoredHeader) (code : Bytes) : Reader StoredBody := do
  if header.moreSections then
    let regions ← readRegions (header.size + header.codeSize) code
    return ⟨some header, code, some regions⟩
  else return ⟨some header, code, none⟩

def readBody : Reader StoredBody := do
  let first ← Reader.number 1
  if first % 4 = 2 then
    let code ← Reader.bytes (first / 4)
    return ⟨none, code, none⟩
  else if first % 4 = 3 then
    let header ← readHeader first
    let code ← Reader.bytes header.codeSize
    readSections header code
  else throw .outOfBounds

namespace Body

/-- The full header that the body is written with. -/
def storedHeader (body : Body) (codeSize : Nat) : StoredHeader where
  size := 12
  moreSections := !body.handlers.isEmpty
  initLocals := body.initLocals
  maxStack := body.maxStack.toNat
  codeSize := codeSize
  locals := (body.locals.map (·.value.toNat)).getD 0

/-- The body as it is written. -/
def stored (body : Body) (code : EncodedCode) : StoredBody :=
  if body.isTiny code.size then ⟨none, code.bytes, none⟩
  else if body.handlers.isEmpty then ⟨some (body.storedHeader code.size), code.bytes, none⟩
  else ⟨some (body.storedHeader code.size), code.bytes,
    some ⟨Bytes.alignFour (12 + code.size), 4 + body.handlers.length * 24, body.handlers.map (·.stored)⟩⟩

/-- The flags hold the kind of the header, its size in words, and what they say about the body. -/
theorem headerFlags_spec (body : Body) : body.headerFlags % 0x100 % 4 = 3 ∧ body.headerFlags / 0x100 = 0x30 ∧
    body.headerFlags / 0x1000 = 3 ∧ body.headerFlags.testBit 3 = !body.handlers.isEmpty ∧
    body.headerFlags.testBit 4 = body.initLocals := by
  unfold headerFlags
  cases body.handlers.isEmpty <;> cases body.initLocals <;> decide

/-- The header behind its first byte. -/
def headerRest (body : Body) (size : Nat) : Bytes :=
  Bytes.littleEndian 1 (body.headerFlags / 0x100) ++ (Bytes.littleEndian 2 body.maxStack.toNat ++
    (Bytes.littleEndian 4 size ++ Bytes.littleEndian 4 ((body.locals.map (·.value.toNat)).getD 0)))

theorem header_eq (body : Body) (size : Nat) :
    body.header size = UInt8.ofNat body.headerFlags :: body.headerRest size := by
  simp [header, headerRest, Bytes.littleEndian]

theorem reads_headerRest {size : Nat} (hsize : size < codeLimit) :
    Reads (readHeader (body.headerFlags % 0x100)) (body.headerRest size) (body.storedHeader size) := by
  obtain ⟨-, hsecond, hwords, hsections, hinit⟩ := body.headerFlags_spec
  have hlocals : (body.locals.map (·.value.toNat)).getD 0 < codeLimit := by
    rcases body.locals with - | token
    · decide
    · exact token.value.toNat_lt
  apply (Reads.number (by omega)).bind
  apply (Reads.number body.maxStack.toNat_lt).bind
  apply (Reads.number hsize).bind
  apply (Reads.number hlocals).map
  simp only [Nat.mod_add_div, hwords, hsections, hinit]
  exact (Reads.bytes []).map (Reads.pure _)

/-- Behind the full header and the code, the sections are left to be read. -/
theorem reads_full {more : Bytes} {result : StoredBody} (hsize : code.size < codeLimit)
    (h : Reads (readSections (body.storedHeader code.size) code.bytes) more result) :
    Reads readBody (body.header code.size ++ code.bytes ++ more) result := by
  obtain ⟨hlow, -⟩ := body.headerFlags_spec
  have hfirst : Reads (Reader.number 1) [UInt8.ofNat body.headerFlags] (body.headerFlags % 0x100) :=
    Reads.number_mod 1 body.headerFlags
  have hcode : Reads (Reader.bytes code.size) code.bytes code.bytes := Reads.bytes code.bytes
  rw [header_eq, List.append_assoc, List.cons_append]
  apply hfirst.bind
  rw [if_neg (by omega), if_pos hlow]
  apply (reads_headerRest hsize).bind
  exact hcode.bind h

/-- An encoded body is read as it is written, whatever follows. -/
theorem reads_encode (h : body.encode = .ok encoded) : Reads readBody encoded.bytes (body.stored encoded.code) := by
  have hfits := encode_ok h
  obtain ⟨clauses, hclauses, hbytes⟩ := encode_parts h
  obtain rfl : body.handlers.map (·.placed body.instructions) = clauses :=
    Except.ok.inj (hfits.clauses_eq.symm.trans hclauses)
  -- the reader takes the same three ways as the writer, since the low bits tell which one it was
  rw [hbytes, assemble, stored]
  split_ifs with htiny hempty
  · have hsmall := (isTiny_iff.mp htiny).1
    have hfirst : Reads (Reader.number 1) [UInt8.ofNat (encoded.code.size * 4 + 2)] (encoded.code.size * 4 + 2) :=
      Reads.number (by omega)
    apply hfirst.bind
    rw [if_pos (by omega), show (encoded.code.size * 4 + 2) / 4 = encoded.code.size by omega]
    exact (Reads.bytes encoded.code.bytes).map (Reads.pure _)
  · rw [← List.append_nil (body.header _ ++ _)]
    apply reads_full hfits.size
    rw [readSections, if_neg (by simp [storedHeader, hempty])]
    exact Reads.pure _
  · have hlength : (body.header encoded.code.size ++ encoded.code.bytes).length = 12 + encoded.code.size := by
      rw [List.length_append, length_header]
      rfl
    rw [Bytes.padToFour, hlength, List.append_assoc, List.length_map]
    apply reads_full hfits.size
    rw [readSections, if_pos (by simp [storedHeader, hempty])]
    exact (hfits.reads_regions (12 + encoded.code.size)).map (Reads.pure _)

/-- The two low bits of an encoded body tell the kind of its header. -/
theorem exists_firstByte (h : body.encode = .ok encoded) : ∃ first, encoded.bytes.head? = some first ∧
    first.toNat % 4 = if body.isTiny encoded.code.size then 2 else 3 := by
  obtain ⟨clauses, -, hbytes⟩ := encode_parts h
  rw [hbytes, assemble]
  split_ifs with htiny hempty
  · refine ⟨_, rfl, ?_⟩
    rw [UInt8.toNat_ofNat']
    omega
  all_goals
    refine ⟨UInt8.ofNat body.headerFlags, ?_, ?_⟩
    · simp [header_eq, Bytes.padToFour]
    · rw [UInt8.toNat_ofNat']
      exact body.headerFlags_spec.1

/-- A body that is written with a tiny header, and ends with its code. -/
structure WrittenTiny (body : Body) (encoded : EncodedBody) (stored : StoredBody) : Prop where
  no_header : stored.header? = none
  no_regions : stored.regions? = none
  handlers : body.handlers = []
  locals : body.locals = none
  initLocals : body.initLocals = false
  maxStack : body.maxStack.toNat ≤ 8
  codeSize : encoded.code.size < 64
  ends : encoded.bytes.length = 1 + encoded.code.size

/-- A body that is written with a full header, and ends with its code or its regions. -/
structure WrittenFull (body : Body) (encoded : EncodedBody) (stored : StoredBody) (header : StoredHeader) :
    Prop where
  has_header : stored.header? = some header
  maxStack : header.maxStack = body.maxStack.toNat
  initLocals : header.initLocals = body.initLocals
  codeSize : header.codeSize = encoded.code.size
  locals : header.locals = (body.locals.map (·.value.toNat)).getD 0
  moreSections : header.moreSections = true ↔ body.handlers ≠ []
  without_regions : header.moreSections = false →
    stored.regions? = none ∧ encoded.bytes.length = header.size + header.codeSize
  with_regions : header.moreSections = true → ∃ regions, stored.regions? = some regions ∧
    regions.start = Bytes.alignFour (header.size + header.codeSize) ∧ regions.start % 4 = 0 ∧
    regions.size = 4 + 24 * body.handlers.length ∧ regions.start + regions.size = encoded.bytes.length ∧
    regions.handlers = body.handlers.map (·.stored)

/-- What a reader finds in an encoded body, and what that tells about the body. -/
structure ReadsBack (body : Body) (encoded : EncodedBody) (stored : StoredBody) : Prop where
  reads : Reads readBody encoded.bytes stored
  code : stored.code = encoded.code.bytes
  instructions : disassemble stored.code = .ok (body.instructions.map (·.unpointed))
  kind : ∃ first, encoded.bytes.head? = some first ∧
    (first.toNat % 4 = 2 ∧ body.WrittenTiny encoded stored ∨
      first.toNat % 4 = 3 ∧ ∃ header, body.WrittenFull encoded stored header)

theorem writtenTiny (h : body.encode = .ok encoded) (htiny : body.isTiny encoded.code.size = true) :
    body.WrittenTiny encoded (body.stored encoded.code) := by
  obtain ⟨hsize, hstack, hlocals, hhandlers, hinit⟩ := isTiny_iff.mp htiny
  have hstored : body.stored encoded.code = ⟨none, encoded.code.bytes, none⟩ := if_pos htiny
  constructor
  case ends => rw [length_encode h, encodedSize, ← (Code.encode_ok (encode_ok h).encodes).2.1, if_pos htiny]
  case no_header | no_regions => rw [hstored]
  all_goals assumption

theorem writtenFull (h : body.encode = .ok encoded) (htiny : ¬body.isTiny encoded.code.size = true) :
    body.WrittenFull encoded (body.stored encoded.code) (body.storedHeader encoded.code.size) := by
  have hlength := length_encode h
  rw [encodedSize, ← (Code.encode_ok (encode_ok h).encodes).2.1, if_neg htiny] at hlength
  unfold stored
  rw [if_neg htiny]
  constructor
  case has_header => split_ifs <;> rfl
  case moreSections => simp [storedHeader]
  case without_regions =>
    intro hsections
    have hempty : body.handlers.isEmpty = true := by simpa [storedHeader] using hsections
    rw [if_pos hempty] at hlength ⊢
    exact ⟨rfl, hlength⟩
  case with_regions =>
    intro hsections
    have hsome : ¬body.handlers.isEmpty = true := by simpa [storedHeader] using hsections
    rw [if_neg hsome] at hlength ⊢
    exact ⟨_, rfl, rfl, Bytes.alignFour_mod _, by rw [Nat.mul_comm], hlength.symm, rfl⟩
  all_goals rfl

/-- Every encoded body is read back, whatever follows it. -/
theorem exists_readsBack (h : body.encode = .ok encoded) : ∃ stored, body.ReadsBack encoded stored := by
  have hcode : (body.stored encoded.code).code = encoded.code.bytes := by
    unfold stored
    split_ifs <;> rfl
  obtain ⟨first, hfirst, hkind⟩ := exists_firstByte h
  refine ⟨body.stored encoded.code, reads_encode h, hcode, ?_, first, hfirst, ?_⟩
  · rw [hcode]
    exact disassemble_encode (encode_ok h).encodes
  · split_ifs at hkind with htiny
    · exact .inl ⟨hkind, writtenTiny h htiny⟩
    · exact .inr ⟨hkind, _, writtenFull h htiny⟩

/-- A body with a filter and a class of exceptions, whose code does not end at a multiple of four. -/
def guardedBody : Body where
  instructions :=
    [{ opcode := .nop }, { opcode := .leaveS, operand := .target 7 }, { opcode := .pop }, { opcode := .ldcI41 },
      { opcode := .endfinally }, { opcode := .pop }, { opcode := .leave, operand := .target 7 }, { opcode := .ret }]
  handlers :=
    [{ flags := .filterBlock, tryStart := 0, tryEnd := 2, handlerStart := 5, handlerEnd := 7, filterStart := some 2 },
      { flags := ⟨0⟩, tryStart := 0, tryEnd := 5, handlerStart := 5, handlerEnd := 8, classToken := some ⟨0x01000001⟩ }]
  maxStack := 300
  initLocals := true

theorem exists_readsBack_guardedBody : ∃ encoded stored, guardedBody.encode = .ok encoded ∧
    guardedBody.ReadsBack encoded stored := by
  obtain ⟨encoded, h⟩ : ∃ encoded, guardedBody.encode = .ok encoded := ⟨_, rfl⟩
  obtain ⟨stored, hstored⟩ := exists_readsBack h
  exact ⟨encoded, stored, h, hstored⟩

end Body
end HotPatch
