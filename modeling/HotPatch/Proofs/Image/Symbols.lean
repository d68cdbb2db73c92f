import HotPatch.Image.Write
import HotPatch.Proofs.Body.Encoding
import HotPatch.Proofs.Code.Encodable
import HotPatch.Proofs.Image.SymbolRoundTrip
import HotPatch.Proofs.Module.MethodRows

/-!
# What the symbols of a module say

Each instruction is encoded into a piece of the code, and its offset is the
number of bytes in the pieces before it. The symbols of a module list the
methods with source spans, in token order, with the spans at these offsets;
reading the symbol file back gives the same list.
-/

namespace HotPatch

namespace Code

variable {instructions : List Instruction} {code : EncodedCode} {all : Array Nat} {index start : Nat}
  {bytes : Bytes}

/-- The code cut into pieces, one for each instruction, each encoded behind the pieces before it. -/
structure EncodedCode.Pieces (code : EncodedCode) (instructions : List Instruction) (pieces : List Bytes) :
    Prop where
  bytes : code.bytes = pieces.flatten
  length : pieces.length = instructions.length
  encodes : ∀ (index : Nat) instruction piece, instructions[index]? = some instruction → pieces[index]? = some piece →
    encodeInstruction code.offsets index (pieces.take index).flatten.length instruction = .ok piece

/-- The source spans, each with the number of bytes in the pieces before its instruction. -/
def spansBehind (instructions : List Instruction) (pieces : List Bytes) : List (Nat × SequencePoint) :=
  instructions.zipIdx.filterMap fun (instruction, index) =>
    instruction.point.map ((pieces.take index).flatten.length, ·)

/-- The source spans of instructions that stand at an offset. -/
def spansFrom : Nat → List Instruction → List (Nat × SequencePoint)
  | _, [] => []
  | start, instruction :: rest =>
      (instruction.point.map (start, ·)).toList ++ spansFrom (start + instruction.size) rest

theorem exists_pieces (h : encodeFrom all index instructions (offsetsFrom start instructions) = .ok bytes) :
    ∃ pieces : List Bytes, bytes = pieces.flatten ∧ pieces.map List.length = instructions.map (·.size) ∧
      ∀ (position : Nat) instruction piece, instructions[position]? = some instruction →
        pieces[position]? = some piece → encodeInstruction all (index + position)
          (start + (pieces.take position).flatten.length) instruction = .ok piece := by
  induction instructions generalizing index start bytes with
  | nil =>
    cases h
    exact ⟨[], rfl, rfl, by simp⟩
  | cons instruction instructions ih =>
    rw [offsetsFrom, encodeFrom] at h
    obtain ⟨head, hh, h⟩ := bind_eq_ok.mp h
    obtain ⟨rest, hr, h⟩ := bind_eq_ok.mp h
    cases h
    have hlength : head.length = instruction.size := length_encodeInstruction hh
    obtain ⟨pieces, rfl, hsizes, hencodes⟩ := ih hr
    refine ⟨head :: pieces, rfl, by simp [hlength, hsizes], fun position found piece hi hp => ?_⟩
    rcases position with - | position
    · cases hi
      cases hp
      exact hh
    · have hrest := hencodes position found piece hi hp
      rw [show index + 1 + position = index + (position + 1) by omega] at hrest
      simpa [hlength, Nat.add_assoc] using hrest

theorem spansFrom_eq (start : Nat) {pieces : List Bytes}
    (h : pieces.map List.length = instructions.map (·.size)) :
    spansFrom start instructions = (spansBehind instructions pieces).map fun span => (start + span.1, span.2) := by
  induction instructions generalizing start pieces with
  | nil => rfl
  | cons instruction instructions ih =>
    rcases pieces with - | ⟨head, pieces⟩
    · cases h
    · obtain ⟨hlength, hsizes⟩ := List.cons.inj h
      have hbehind : spansBehind (instruction :: instructions) (head :: pieces) =
          (instruction.point.map (0, ·)).toList ++
            (spansBehind instructions pieces).map fun span => (instruction.size + span.1, span.2) := by
        unfold spansBehind
        rw [List.zipIdx_cons, List.filterMap_cons, Nat.zero_add, List.zipIdx_succ, List.filterMap_map,
          List.map_filterMap]
        rcases hp : instruction.point with - | point
        · simp [Function.comp_def, hlength, hp]
        · simp [Function.comp_def, hlength, hp]
      rw [spansFrom, ih _ hsizes, hbehind, List.map_append, List.map_map]
      rcases instruction.point with - | point
      · simp [Function.comp_def, Nat.add_assoc]
      · simp [Function.comp_def, Nat.add_assoc]

theorem exists_encode_pieces (h : encode instructions = .ok code) :
    ∃ pieces, code.Pieces instructions pieces ∧ spansFrom 0 instructions = spansBehind instructions pieces := by
  obtain ⟨hoffsets, -, hbytes⟩ := encode_ok h
  obtain ⟨pieces, hp, hsizes, hencodes⟩ := exists_pieces hbytes
  have hlength := congrArg List.length hsizes
  rw [List.length_map, List.length_map] at hlength
  refine ⟨pieces, ⟨hp, hlength, fun index instruction piece hi hm => ?_⟩, ?_⟩
  · rw [hoffsets]
    simpa using hencodes index instruction piece hi hm
  · simp [spansFrom_eq 0 hsizes]

theorem length_spansFrom_le (start : Nat) (instructions : List Instruction) :
    (spansFrom start instructions).length ≤ instructions.length := by
  induction instructions generalizing start with
  | nil => exact Nat.le_refl 0
  | cons instruction instructions ih =>
    have hrest := ih (start + instruction.size)
    rw [spansFrom, List.length_append, List.length_cons]
    rcases instruction.point with - | point
    · simp only [Option.map_none, Option.toList_none, List.length_nil]
      omega
    · simp only [Option.map_some, Option.toList_some, List.length_singleton]
      omega

theorem mem_spansFrom {span : Nat × SequencePoint} (h : span ∈ spansFrom start instructions) :
    span.1 ∈ offsetsFrom start instructions ∧ ∃ instruction ∈ instructions, instruction.point = some span.2 := by
  induction instructions generalizing start with
  | nil => cases h
  | cons instruction instructions ih =>
    rcases List.mem_append.mp h with h | h
    · obtain ⟨point, hp, rfl⟩ := Option.map_eq_some_iff.mp (Option.mem_toList.mp h)
      exact ⟨List.mem_cons_self, instruction, List.mem_cons_self, hp⟩
    · obtain ⟨ho, found, hf, hp⟩ := ih h
      exact ⟨List.mem_cons_of_mem _ ho, found, List.mem_cons_of_mem _ hf, hp⟩

theorem spansFrom_eq_nil : spansFrom start instructions = [] ↔ ∀ instruction ∈ instructions, instruction.point = none := by
  induction instructions generalizing start with
  | nil => simp [spansFrom]
  | cons instruction instructions ih =>
    rw [spansFrom, List.append_eq_nil_iff, ih, List.forall_mem_cons, Option.toList_eq_nil_iff,
      Option.map_eq_none_iff]

theorem offsetOf?_of_encode (h : encode instructions = .ok code) {index : Nat} (hi : index < instructions.length) :
    code.offsetOf? index = (offsetsFrom 0 instructions)[index]? := by
  have hoffsets := (encode_ok h).1
  rw [EncodedCode.offsetOf?, hoffsets, if_neg (by simp; omega), List.getElem?_toArray]

theorem offsetOf?_lt (h : encode instructions = .ok code) {index offset : Nat}
    (ho : code.offsetOf? index = some offset) : offset < codeLimit := by
  have hbelow := (exists_encode_iff.mp ⟨code, h⟩).offsets
  rw [EncodedCode.offsetOf?, (encode_ok h).1] at ho
  split_ifs at ho with hend hlength
  · cases ho
    exact hlength
  · rw [List.getElem?_toArray, offsetsFrom_zero] at ho
    obtain ⟨position, hposition, rfl⟩ := List.mem_map.mp (List.mem_of_getElem? ho)
    exact hbelow position (List.mem_range.mp hposition)

end Code

namespace Image

open Code

variable {module : Module} {code : EncodedCode} {body : Body} {token : Token} {method : MethodDef} {documents : Nat}

/-- All source spans of the instructions are in the first documents. -/
def Known (documents : Nat) (instructions : List Instruction) : Prop :=
  ∀ instruction ∈ instructions, ∀ point, instruction.point = some point → point.document.toNat < documents

theorem instructionPoint_eq_ok {instruction : Instruction} {index offset : Nat}
    {span : Option (Nat × SequencePoint)} (ho : code.offsetOf? index = some offset) :
    instructionPoint documents token code index instruction = .ok span ↔
      Known documents [instruction] ∧ span = instruction.point.map (offset, ·) := by
  simp only [Known, List.forall_mem_singleton, instructionPoint, ho]
  rcases instruction.point with - | point
  · simp [eq_comm]
  · simp only [Option.some.injEq, forall_eq', Option.map_some]
    split_ifs with hd
    · simp [malformed, Nat.not_lt.mpr hd]
    · simp [Nat.lt_of_not_le hd, eq_comm]

theorem methodPoints_eq_ok (h : Code.encode body.instructions = .ok code) {points : List (Nat × SequencePoint)} :
    methodPoints documents token body code = .ok points ↔
      Known documents body.instructions ∧ points = spansFrom 0 body.instructions := by
  have hitems : ∀ (instructions : List Instruction) (first start : Nat) points, (∀ index < instructions.length,
      code.offsetOf? (first + index) = (offsetsFrom start instructions)[index]?) →
      ((∃ spans, List.Forall₂ (fun item span => instructionPoint documents token code item.2 item.1 = .ok span)
          (instructions.zipIdx first) spans ∧ spans.filterMap id = points) ↔
        Known documents instructions ∧ points = spansFrom start instructions) := by
    intro instructions
    induction instructions with
    | nil => simp [Known, spansFrom, eq_comm]
    | cons instruction instructions ih =>
      intro first start points ho
      have hfirst : code.offsetOf? first = some start := ho 0 (Nat.succ_pos _)
      have hrest := fun points => ih (first + 1) (start + instruction.size) points fun index hi => by
        rw [Nat.add_right_comm, Nat.add_assoc]
        exact ho (index + 1) (Nat.succ_lt_succ hi)
      have hknown : Known documents (instruction :: instructions) ↔
          Known documents [instruction] ∧ Known documents instructions := by
        simp [Known]
      rw [List.zipIdx_cons, hknown, spansFrom]
      simp only [List.forall₂_cons_left_iff, instructionPoint_eq_ok hfirst]
      constructor
      · rintro ⟨_, ⟨span, spans, ⟨hk, rfl⟩, hall, rfl⟩, rfl⟩
        obtain ⟨hks, hs⟩ := (hrest _).mp ⟨spans, hall, rfl⟩
        refine ⟨⟨hk, hks⟩, ?_⟩
        rw [← hs]
        cases instruction.point <;> rfl
      · rintro ⟨⟨hk, hks⟩, rfl⟩
        obtain ⟨spans, hall, hs⟩ := (hrest _).mpr ⟨hks, rfl⟩
        refine ⟨_, ⟨_, spans, ⟨hk, rfl⟩, hall, rfl⟩, ?_⟩
        rw [← hs]
        cases instruction.point <;> rfl
  rw [← hitems body.instructions 0 0 points fun index hi => by rw [Nat.zero_add, offsetOf?_of_encode h hi],
    methodPoints, bind_eq_ok]
  simp only [mapM_eq_ok]
  exact exists_congr fun spans => and_congr_right fun _ => ⟨Except.ok.inj, congrArg Except.ok⟩

/-- The symbols of a method with a body. -/
def bodySymbols (row : Token × MethodDef) : Option MethodSymbols :=
  row.2.body.map fun body => ⟨row.1, spansFrom 0 body.instructions⟩

/-- The symbols of the methods that have source spans. -/
def methodList (module : Module) : List MethodSymbols :=
  (module.methodRows.filterMap bodySymbols).filter fun symbols => !symbols.points.isEmpty

/-- The bodies refer to documents of the module. -/
def DocumentsKnown (module : Module) : Prop :=
  ∀ method ∈ module.methods, ∀ body, method.body = some body → Known module.documents.size body.instructions

/-- The symbols of a module for an image with the given digest. -/
def moduleSymbols (module : Module) (digest : Digest) : SymbolFile :=
  ⟨digest, module.versionId, module.documents.toList, methodList module⟩

/-- The numbers that the writer checks. -/
structure Countable (file : SymbolFile) : Prop where
  documents : file.documents.length < sizeLimit
  names : ∀ name ∈ file.documents, (Bytes.ofText name).length < sizeLimit
  methods : file.methods.length < sizeLimit
  points : ∀ symbols ∈ file.methods, symbols.points.length < sizeLimit

theorem encodeBody_eq_ok {body : Body} (h : method.body = some body) {encoded : Option (Token × EncodedBody)} :
    encodeBody token method = .ok encoded ↔ ∃ bytes, body.encode = .ok bytes ∧ encoded = some (token, bytes) := by
  rw [encodeBody, h]
  exact bind_eq_ok.trans (exists_congr fun bytes => and_congr_right fun _ =>
    ⟨fun he => (Except.ok.inj he).symm, fun he => congrArg Except.ok he.symm⟩)

theorem encodeBody_of_none (h : method.body = none) : encodeBody token method = .ok none := by
  rw [encodeBody, h]

theorem methodSymbols_eq_ok (hm : module.method? token = some method) (hb : method.body = some body)
    (hc : Code.encode body.instructions = .ok code) {symbols : MethodSymbols} :
    methodSymbols module token code = .ok symbols ↔
      Known module.documents.size body.instructions ∧ symbols = ⟨token, spansFrom 0 body.instructions⟩ := by
  simp only [methodSymbols, hm, hb, Option.bind_some]
  rw [bind_eq_ok]
  constructor
  · rintro ⟨points, hp, h⟩
    obtain ⟨hk, rfl⟩ := (methodPoints_eq_ok hc).mp hp
    exact ⟨hk, (Except.ok.inj h).symm⟩
  · rintro ⟨hk, rfl⟩
    exact ⟨_, (methodPoints_eq_ok hc).mpr ⟨hk, rfl⟩, rfl⟩

theorem bodySymbols_of_body {body : Body} (h : method.body = some body) :
    bodySymbols (token, method) = some ⟨token, spansFrom 0 body.instructions⟩ := by
  simp [bodySymbols, h]

/-- Row by row: what the encoded bodies give rise to is what the rows say. -/
theorem bodySymbols_of_encoded {rows : List (Token × MethodDef)} {encoded : List (Option (Token × EncodedBody))}
    (hown : ∀ row ∈ rows, module.method? row.1 = some row.2)
    (he : List.Forall₂ (fun row value => encodeBody row.1 row.2 = .ok value) rows encoded)
    {all : List MethodSymbols} :
    List.Forall₂ (fun code symbols => methodSymbols module code.1 code.2 = .ok symbols)
        ((encoded.filterMap id).map fun body => (body.1, body.2.code)) all ↔
      (∀ row ∈ rows, ∀ body, row.2.body = some body → Known module.documents.size body.instructions) ∧
        all = rows.filterMap bodySymbols := by
  induction he generalizing all with
  | nil => simp
  | @cons row value rows encoded hfirst _ ih =>
    obtain ⟨token, method⟩ := row
    rw [List.forall_mem_cons] at hown
    obtain ⟨hm, hrest⟩ := hown
    rw [List.forall_mem_cons]
    rcases hb : method.body with - | body
    · rw [encodeBody_of_none hb, Except.ok.injEq] at hfirst
      subst hfirst
      rw [List.filterMap_cons_none rfl, List.filterMap_cons_none (by simp [bodySymbols, hb]), ih hrest]
      simp
    · obtain ⟨bytes, hbytes, rfl⟩ := (encodeBody_eq_ok hb).mp hfirst
      have hcode := (Body.encode_ok hbytes).encodes
      rw [List.filterMap_cons_some (f := id) rfl, List.map_cons, List.filterMap_cons_some (bodySymbols_of_body hb)]
      simp only [List.forall₂_cons_left_iff, methodSymbols_eq_ok hm hb hcode, ih hrest, Option.some.injEq,
        forall_eq']
      constructor
      · rintro ⟨_, _, ⟨hk, rfl⟩, ⟨hks, rfl⟩, rfl⟩
        exact ⟨⟨hk, hks⟩, rfl⟩
      · rintro ⟨⟨hk, hks⟩, rfl⟩
        exact ⟨_, _, ⟨hk, rfl⟩, ⟨hks, rfl⟩, rfl⟩

theorem checkSymbolCount_eq_ok {length : Nat} : checkSymbolCount length = .ok () ↔ length < sizeLimit := by
  unfold checkSymbolCount
  split_ifs with h <;> simp [h, malformed]

theorem documentsKnown_iff : DocumentsKnown module ↔ ∀ row ∈ module.methodRows, ∀ body, row.2.body = some body →
    Known module.documents.size body.instructions := by
  simp only [DocumentsKnown, Module.mem_methods_iff]
  exact ⟨fun h row hr => h row.2 ⟨row, hr, rfl⟩, fun h method ⟨row, hr, he⟩ => he ▸ h row hr⟩

theorem symbolFile_eq_ok {bodies : Bodies} {digest : Digest} {file : SymbolFile} (hown : module.OwnsTokens)
    (hb : encodeBodies module = .ok bodies) :
    symbolFile module (bodies.map fun body => (body.1, body.2.code)) digest = .ok file ↔
      DocumentsKnown module ∧ Countable file ∧ file = moduleSymbols module digest := by
  obtain ⟨encoded, he, hbodies⟩ := bind_eq_ok.mp hb
  cases hbodies
  have hall := fun all => @bodySymbols_of_encoded module _ _ hown (mapM_eq_ok.mp he) all
  rw [documentsKnown_iff]
  constructor
  · intro h
    obtain ⟨⟨⟩, hd, h⟩ := bind_eq_ok.mp h
    obtain ⟨⟨⟩, hn, h⟩ := bind_eq_ok.mp h
    obtain ⟨all, ha, h⟩ := bind_eq_ok.mp h
    obtain ⟨⟨⟩, hm, h⟩ := bind_eq_ok.mp h
    obtain ⟨⟨⟩, hp, h⟩ := bind_eq_ok.mp h
    obtain ⟨hk, rfl⟩ := (hall all).mp (mapM_eq_ok.mp ha)
    cases h
    exact ⟨hk, ⟨checkSymbolCount_eq_ok.mp hd, fun name hi => checkSymbolCount_eq_ok.mp (forM_eq_ok.mp hn name hi),
      checkSymbolCount_eq_ok.mp hm, fun symbols hs => checkSymbolCount_eq_ok.mp (forM_eq_ok.mp hp symbols hs)⟩, rfl⟩
  · rintro ⟨hk, ⟨hd, hn, hm, hp⟩, rfl⟩
    exact bind_eq_ok.mpr ⟨(), checkSymbolCount_eq_ok.mpr hd, bind_eq_ok.mpr ⟨(),
      forM_eq_ok.mpr fun name hi => checkSymbolCount_eq_ok.mpr (hn name hi), bind_eq_ok.mpr ⟨_,
        mapM_eq_ok.mpr ((hall _).mpr ⟨hk, rfl⟩), bind_eq_ok.mpr ⟨(), checkSymbolCount_eq_ok.mpr hm,
          bind_eq_ok.mpr ⟨(), forM_eq_ok.mpr fun symbols hs => checkSymbolCount_eq_ok.mpr (hp symbols hs), rfl⟩⟩⟩⟩⟩

theorem mem_methodPoints {points : List (Nat × SequencePoint)} {span : Nat × SequencePoint}
    (h : methodPoints documents token body code = .ok points) (hs : span ∈ points) :
    ∃ index, code.offsetOf? index = some span.1 := by
  obtain ⟨values, hv, h⟩ := bind_eq_ok.mp h
  cases h
  obtain ⟨value, hm, rfl⟩ := List.mem_filterMap.mp hs
  obtain ⟨⟨instruction, index⟩, -, hi⟩ := exists_of_mem_mapM hv hm
  dsimp only [instructionPoint] at hi
  rcases hp : instruction.point with - | point <;> rw [hp] at hi
  · cases hi
  · dsimp only at hi
    split_ifs at hi
    · cases hi
    · rcases ho : code.offsetOf? index with - | offset <;> rw [ho] at hi <;> cases hi
      exact ⟨index, ho⟩

/-- Whatever the rows, the symbols that are written can be read back. -/
theorem symbolFile_narrow {bodies : Bodies} {digest : Digest} {file : SymbolFile}
    (hb : encodeBodies module = .ok bodies)
    (h : symbolFile module (bodies.map fun body => (body.1, body.2.code)) digest = .ok file) :
    file.Narrow ∧ file.digest = digest := by
  obtain ⟨⟨⟩, hd, h⟩ := bind_eq_ok.mp h
  obtain ⟨⟨⟩, hn, h⟩ := bind_eq_ok.mp h
  obtain ⟨all, ha, h⟩ := bind_eq_ok.mp h
  obtain ⟨⟨⟩, hm, h⟩ := bind_eq_ok.mp h
  obtain ⟨⟨⟩, hp, h⟩ := bind_eq_ok.mp h
  cases h
  refine ⟨⟨checkSymbolCount_eq_ok.mp hd, fun name hi => checkSymbolCount_eq_ok.mp (forM_eq_ok.mp hn name hi),
    checkSymbolCount_eq_ok.mp hm, fun symbols hs => checkSymbolCount_eq_ok.mp (forM_eq_ok.mp hp symbols hs), ?_⟩, rfl⟩
  intro symbols hs span hspan
  obtain ⟨⟨token, code⟩, hc, hsymbols⟩ := exists_of_mem_mapM ha (List.mem_of_mem_filter hs)
  obtain ⟨⟨_, encoded⟩, hbody, hpair⟩ := List.mem_map.mp hc
  cases hpair
  obtain ⟨values, hv, hbodies⟩ := bind_eq_ok.mp hb
  cases hbodies
  obtain ⟨value, hvalue, rfl⟩ := List.mem_filterMap.mp hbody
  obtain ⟨⟨_, method⟩, -, hmethod⟩ := exists_of_mem_mapM hv hvalue
  dsimp only at hmethod hsymbols
  rcases hmb : method.body with - | body
  · rw [encodeBody_of_none hmb] at hmethod
    cases hmethod
  · obtain ⟨bytes, hbytes, hvalue⟩ := (encodeBody_eq_ok hmb).mp hmethod
    cases hvalue
    unfold methodSymbols at hsymbols
    split at hsymbols
    · cases hsymbols
      cases hspan
    · obtain ⟨points, hpoints, hsymbols⟩ := bind_eq_ok.mp hsymbols
      cases hsymbols
      obtain ⟨index, ho⟩ := mem_methodPoints hpoints hspan
      exact offsetOf?_lt (Body.encode_ok hbytes).encodes ho

/-- The symbols that are written name the image by its digest. -/
theorem parse_written {written : Written} (h : write module = .ok written) :
    ∃ file, SymbolFile.parse written.symbols = .ok file ∧ file.digest = Sha1.digest written.image := by
  obtain ⟨⟨⟩, -, h⟩ := bind_eq_ok.mp h
  obtain ⟨bodies, hb, h⟩ := bind_eq_ok.mp h
  obtain ⟨image, -, h⟩ := bind_eq_ok.mp h
  obtain ⟨file, hf, h⟩ := bind_eq_ok.mp h
  cases h
  obtain ⟨hnarrow, hdigest⟩ := symbolFile_narrow hb hf
  exact ⟨file, SymbolFile.parse_encode hnarrow, hdigest⟩

/-- A successful write leaves the symbols of the module, for the digest of the image. -/
theorem write_eq_ok {written : Written} (hown : module.OwnsTokens) (h : write module = .ok written) :
    ∃ bodies, encodeBodies module = .ok bodies ∧ writeImage module bodies = .ok written.image ∧
      DocumentsKnown module ∧ written.digest = Sha1.digest written.image ∧
      SymbolFile.parse written.symbols = .ok (moduleSymbols module (Sha1.digest written.image)) := by
  obtain ⟨⟨⟩, -, h⟩ := bind_eq_ok.mp h
  obtain ⟨bodies, hb, h⟩ := bind_eq_ok.mp h
  obtain ⟨image, hi, h⟩ := bind_eq_ok.mp h
  obtain ⟨file, hf, h⟩ := bind_eq_ok.mp h
  obtain ⟨hnarrow, -⟩ := symbolFile_narrow hb hf
  obtain ⟨hk, -, rfl⟩ := (symbolFile_eq_ok hown hb).mp hf
  cases h
  exact ⟨bodies, hb, hi, hk, rfl, SymbolFile.parse_encode hnarrow⟩

/-- Whether some instruction of the method has a source span. -/
def hasSpans (module : Module) (token : Token) : Bool :=
  (module.method? token).any fun method => method.body.any fun body => body.instructions.any (·.point.isSome)

theorem hasSpans_row (hown : module.OwnsTokens) {row : Token × MethodDef} (hr : row ∈ module.methodRows) :
    hasSpans module row.1 = (bodySymbols row).any fun symbols => !symbols.points.isEmpty := by
  rw [hasSpans, hown row hr, Option.any_some, bodySymbols]
  rcases row.2.body with - | body
  · rfl
  · rw [Option.any_some, Option.map_some, Option.any_some, Bool.eq_iff_iff, Bool.not_eq_true',
      List.isEmpty_eq_false_iff, ne_eq, spansFrom_eq_nil]
    simp [Option.isSome_iff_ne_none]

theorem methodList_tokens (hown : module.OwnsTokens) :
    (methodList module).map (·.method) = module.methodTokens.filter (hasSpans module) := by
  have hrows : ∀ rows : List (Token × MethodDef), (∀ row ∈ rows, row ∈ module.methodRows) →
      ((rows.filterMap bodySymbols).filter fun symbols => !symbols.points.isEmpty).map (·.method) =
        (rows.map Prod.fst).filter (hasSpans module) := by
    intro rows hmem
    induction rows with
    | nil => rfl
    | cons row rows ih =>
      obtain ⟨hr, hrest⟩ := List.forall_mem_cons.mp hmem
      have hspans := hasSpans_row hown hr
      rw [List.map_cons, List.filter_cons, hspans, ← ih hrest]
      rcases hb : bodySymbols row with - | symbols
      · rw [List.filterMap_cons_none hb]
        rfl
      · obtain ⟨body, -, rfl⟩ := Option.map_eq_some_iff.mp hb
        rw [List.filterMap_cons_some hb, List.filter_cons, Option.any_some]
        split_ifs
        · rfl
        · rfl
  rw [methodList, hrows module.methodRows fun _ hr => hr, Module.map_fst_methodRows]

/-- What the symbol file of a module says, written for an image. -/
structure SymbolFile.Describes (file : SymbolFile) (module : Module) (image : Bytes) : Prop where
  digest : file.digest = Sha1.digest image
  versionId : file.versionId = module.versionId
  documents : file.documents = module.documents.toList
  methods : file.methods.map (·.method) = module.methodTokens.filter (hasSpans module)
  increasing : file.methods.Pairwise fun first second => first.method.row < second.method.row
  points : ∀ symbols ∈ file.methods, ∃ method body encoded pieces,
    module.method? symbols.method = some method ∧ method.body = some body ∧ body.encode = .ok encoded ∧
      encoded.code.Pieces body.instructions pieces ∧ symbols.points = spansBehind body.instructions pieces
  known : ∀ symbols ∈ file.methods, ∀ span ∈ symbols.points, span.2.document.toNat < file.documents.length

theorem describes_moduleSymbols {bodies : Bodies} (hown : module.OwnsTokens)
    (hb : encodeBodies module = .ok bodies) (hk : DocumentsKnown module) (image : Bytes) :
    (moduleSymbols module (Sha1.digest image)).Describes module image := by
  have hrows : ∀ symbols ∈ methodList module, ∃ row ∈ module.methodRows, ∃ body, row.2.body = some body ∧
      symbols = ⟨row.1, spansFrom 0 body.instructions⟩ := by
    intro symbols hs
    obtain ⟨row, hr, he⟩ := List.mem_filterMap.mp (List.mem_of_mem_filter hs)
    obtain ⟨body, hbody, rfl⟩ := Option.map_eq_some_iff.mp he
    exact ⟨row, hr, body, hbody, rfl⟩
  refine ⟨rfl, rfl, rfl, methodList_tokens hown, ?_, fun symbols hs => ?_, fun symbols hs span hm => ?_⟩
  · have hincreasing := (Module.methodTokens_increasing hown).filter (hasSpans module)
    rw [← methodList_tokens hown, List.pairwise_map] at hincreasing
    exact hincreasing
  · obtain ⟨row, hr, body, hbody, rfl⟩ := hrows symbols hs
    obtain ⟨encoded, hall, -⟩ := bind_eq_ok.mp hb
    obtain ⟨value, hv⟩ := exists_mapM_eq_ok.mp ⟨encoded, hall⟩ row hr
    obtain ⟨bytes, hbytes, -⟩ := (encodeBody_eq_ok hbody).mp hv
    obtain ⟨pieces, hp, hspans⟩ := exists_encode_pieces (Body.encode_ok hbytes).encodes
    exact ⟨row.2, body, bytes, pieces, hown row hr, hbody, hbytes, hp, hspans⟩
  · obtain ⟨row, hr, body, hbody, rfl⟩ := hrows symbols hs
    obtain ⟨-, instruction, hi, hpoint⟩ := mem_spansFrom hm
    have hlt := documentsKnown_iff.mp hk row hr body hbody instruction hi span.2 hpoint
    simpa [moduleSymbols] using hlt

/-- The symbols that are written describe the module and its image. -/
theorem parse_symbols {written : Written} (hown : module.OwnsTokens) (h : write module = .ok written) :
    ∃ file, SymbolFile.parse written.symbols = .ok file ∧ file.Describes module written.image := by
  obtain ⟨bodies, hb, -, hk, -, hparse⟩ := write_eq_ok hown h
  exact ⟨_, hparse, describes_moduleSymbols hown hb hk written.image⟩

/-- A module with one method, which has source spans. -/
def spannedSample : Module where
  name := "Patch"
  documents := #["Player.cs"]
  typeDefs := #[{ name := ⟨"", "Player"⟩, methods := [.ofRow .methodDef 1] }]
  methods := #[{
    owner := .ofRow .typeDef 1
    name := "Run"
    flags := .static
    body := some { instructions := [
      { opcode := .nop, point := some ⟨0, 4, 9, 4, 10, false⟩ },
      { opcode := .ret, point := some ⟨0, 5, 9, 5, 16, false⟩ }] } }]

theorem ownsTokens_spannedSample : spannedSample.OwnsTokens := Module.ownsTokens_iff.mpr (by decide)

theorem write_spannedSample : ∃ written, write spannedSample = .ok written := by
  have hok : (write spannedSample).isOk = true := by decide +kernel
  rcases hw : write spannedSample with error | written
  · rw [hw] at hok
    cases hok
  · exact ⟨written, rfl⟩

theorem parse_symbols_spannedSample : spannedSample.OwnsTokens ∧ ∃ written, write spannedSample = .ok written ∧
    ∃ file, SymbolFile.parse written.symbols = .ok file ∧ file.Describes spannedSample written.image := by
  obtain ⟨written, hw⟩ := write_spannedSample
  exact ⟨ownsTokens_spannedSample, written, hw, parse_symbols ownsTokens_spannedSample hw⟩

end Image
end HotPatch
