import HotPatch.Patch.Neutralize
import HotPatch.Proofs.Body.ReturningClauses
import HotPatch.Proofs.Image.Symbols
import HotPatch.Proofs.Module.Built

/-!
# Symbols of a module with a return in front of a method

A return in front of a method adds one byte to its code. In the symbol file the
offsets of the method grow by one, and nothing else changes.
-/

namespace HotPatch

open Code

variable {module module' : Module} {token : Token} {body : Body}

theorem spansFrom_shift (start : Nat) (instructions : List Instruction) :
    spansFrom (start + 1) (instructions.map (·.shift 0)) =
      (spansFrom start instructions).map fun span => (span.1 + 1, span.2) := by
  induction instructions generalizing start with
  | nil => rfl
  | cons instruction instructions ih =>
    rw [List.map_cons, spansFrom, spansFrom, List.map_append, ← ih, Instruction.shift_point,
      Instruction.shift_size, Nat.add_right_comm]
    cases instruction.point <;> rfl

theorem spansFrom_returning (body : Body) : spansFrom 0 body.returning.instructions =
    (spansFrom 0 body.instructions).map fun span => (span.1 + 1, span.2) := by
  rw [← spansFrom_shift]
  rfl

theorem Module.methodRows_of_modifyMethod? {change : MethodDef → MethodDef} (hown : module.OwnsTokens)
    (h : module.modifyMethod? token change = some module') : module'.OwnsTokens ∧
      module'.methodRows = module.methodRows.map fun row => if token = row.1 then (row.1, change row.2) else row := by
  obtain ⟨-, -, hsize, hfound⟩ := modifyMethod?_spec h
  have hown' : module'.OwnsTokens := by
    rw [ownsTokens_iff] at hown ⊢
    rwa [hsize]
  have htokens : module'.methodTokens = module.methodTokens := by
    rw [methodTokens, methodTokens, tokens, tokens, rowCount, rowCount, hsize]
  refine ⟨hown', ?_⟩
  rw [methodRows_eq hown', methodRows_eq hown, htokens, List.map_filterMap]
  refine List.filterMap_congr fun other _ => ?_
  rw [hfound other, Option.map_map, Option.map_map]
  refine congrArg (Option.map · (module.method? other)) (funext fun method => ?_)
  by_cases he : token = other
  · simp [he]
  · simp [he]

theorem Module.insertInstruction_eq_ok {method : MethodDef} {index : Nat} {instruction : Instruction}
    (hm : module.method? token = some method) (hb : method.body = some body) :
    module.insertInstruction token index instruction = .ok module' ↔ ∃ inserted,
      body.insert index instruction = .ok inserted ∧
        module.modifyMethod? token (fun row => { row with body := some inserted }) = some module' := by
  have hmodify : ∀ change, ∃ changed, module.modifyMethod? token change = some changed := fun change =>
    ⟨_, by rw [modifyMethod?, hm, Option.map_some]⟩
  unfold insertInstruction
  rw [require_eq_ok.mpr hm, bind_eq_ok]
  simp only [Except.ok.injEq, exists_eq_left', hb]
  rw [bind_eq_ok]
  refine exists_congr fun inserted => and_congr_right fun _ => ?_
  obtain ⟨changed, hc⟩ := hmodify fun row => { row with body := some inserted }
  rw [hc, Option.getD_some, Option.some.injEq]
  exact ⟨Except.ok.inj, congrArg Except.ok⟩

namespace Image

/-- The spans of a method whose code stands one byte further behind. -/
def MethodSymbols.moved (symbols : MethodSymbols) : MethodSymbols :=
  { symbols with points := symbols.points.map fun span => (span.1 + 1, span.2) }

/-- The symbols when the code of one method has got a byte in front. -/
def SymbolFile.moved (file : SymbolFile) (token : Token) : SymbolFile :=
  { file with methods := file.methods.map fun symbols => if token = symbols.method then symbols.moved else symbols }

variable {method : MethodDef}

theorem bodySymbols_returning (hb : method.body = some body) :
    bodySymbols (token, { method with body := some body.returning }) =
      (bodySymbols (token, method)).map MethodSymbols.moved := by
  rw [bodySymbols_of_body rfl, bodySymbols_of_body hb, Option.map_some, MethodSymbols.moved, spansFrom_returning]

theorem known_returning {documents : Nat} (h : Known documents body.instructions) :
    Known documents body.returning.instructions := by
  intro instruction hi point hp
  rcases List.mem_cons.mp hi with rfl | hi
  · cases hp
  · obtain ⟨old, ho, rfl⟩ := List.mem_map.mp hi
    rw [Instruction.shift_point] at hp
    exact h old ho point hp

theorem countable_moved {file : SymbolFile} (h : Countable file) (token : Token) (digest : Digest) :
    Countable { file.moved token with digest } where
  documents := h.documents
  names := h.names
  methods := by
    rw [SymbolFile.moved, List.length_map]
    exact h.methods
  points symbols hs := by
    obtain ⟨old, ho, rfl⟩ := List.mem_map.mp hs
    have hlength := h.points old ho
    split_ifs
    · rwa [MethodSymbols.moved, List.length_map]
    · exact hlength

section Inserted

/-- One row has got a return in front of its body. -/
def returningRow (token : Token) (body : Body) (row : Token × MethodDef) : Token × MethodDef :=
  if token = row.1 then (row.1, { row.2 with body := some body.returning }) else row

variable (hown : module.OwnsTokens) (hm : module.method? token = some method) (hb : method.body = some body)
  (hrows : module'.methodRows = module.methodRows.map (returningRow token body))

include hown hm hb in
theorem body_of_row {row : Token × MethodDef} (hr : row ∈ module.methodRows) (he : token = row.1) :
    row.2.body = some body := by
  have hfound := hown row hr
  rw [← he, hm, Option.some.injEq] at hfound
  rw [← hfound, hb]

include hown hm hb hrows

theorem methodList_returning : methodList module' = (methodList module).map fun symbols =>
    if token = symbols.method then symbols.moved else symbols := by
  have hsymbols : ∀ row ∈ module.methodRows, (bodySymbols ∘ returningRow token body) row =
      (bodySymbols row).map fun symbols => if token = symbols.method then symbols.moved else symbols := by
    intro row hr
    rw [Function.comp_apply, returningRow]
    have hkept : ∀ symbols, bodySymbols row = some symbols → symbols.method = row.1 := by
      intro symbols hs
      obtain ⟨_, -, rfl⟩ := Option.map_eq_some_iff.mp hs
      rfl
    split_ifs with he
    · rw [bodySymbols_returning (body_of_row hown hm hb hr he)]
      refine Option.map_congr fun symbols hs => ?_
      rw [if_pos (he.trans (hkept symbols hs).symm)]
    · rcases hs : bodySymbols row with - | symbols
      · rfl
      · rw [Option.map_some, if_neg fun hm => he (hm.trans (hkept symbols hs))]
  have hempty : ∀ symbols : MethodSymbols,
      (if token = symbols.method then symbols.moved else symbols).points.isEmpty = symbols.points.isEmpty := by
    intro symbols
    split_ifs
    · rw [MethodSymbols.moved, List.isEmpty_map]
    · rfl
  rw [methodList, hrows, List.filterMap_map, List.filterMap_congr hsymbols, ← List.map_filterMap, List.filter_map]
  simp only [Function.comp_def, hempty]
  rfl

theorem documentsKnown_returning (hsize : module'.documents.size = module.documents.size)
    (h : DocumentsKnown module) : DocumentsKnown module' := by
  rw [documentsKnown_iff] at h ⊢
  rw [hrows, hsize, List.forall_mem_map]
  intro row hr other ho
  unfold returningRow at ho
  split_ifs at ho with he
  · cases ho
    exact known_returning (h row hr body (body_of_row hown hm hb hr he))
  · exact h row hr other ho

omit hown hm hb in
theorem encodeBodies_returning {bodies : Bodies} (h : encodeBodies module = .ok bodies)
    (hencodes : ∃ encoded, body.returning.encode = .ok encoded) : ∃ bodies', encodeBodies module' = .ok bodies' := by
  obtain ⟨all, ha, -⟩ := bind_eq_ok.mp h
  suffices hall : ∃ encoded, module'.methodRows.mapM (fun row => encodeBody row.1 row.2) = .ok encoded by
    obtain ⟨encoded, he⟩ := hall
    exact ⟨_, bind_eq_ok.mpr ⟨encoded, he, rfl⟩⟩
  rw [exists_mapM_eq_ok, hrows, List.forall_mem_map]
  intro row hr
  unfold returningRow
  split_ifs with he
  · obtain ⟨encoded, hencoded⟩ := hencodes
    exact ⟨_, (encodeBody_eq_ok rfl).mpr ⟨encoded, hencoded, rfl⟩⟩
  · exact exists_mapM_eq_ok.mp ⟨all, ha⟩ row hr

end Inserted

/-- The symbol file of a module, when one method has got a byte in front of its code. -/
structure SymbolsMove (module module' : Module) (token : Token) : Prop where
  symbolFile : ∀ bodies digest file, encodeBodies module = .ok bodies →
    symbolFile module (bodies.map fun body => (body.1, body.2.code)) digest = .ok file →
    ∃ bodies', encodeBodies module' = .ok bodies' ∧ ∀ digest',
      symbolFile module' (bodies'.map fun body => (body.1, body.2.code)) digest' =
        .ok { file.moved token with digest := digest' }
  written : ∀ written written', write module = .ok written → write module' = .ok written' →
    ∃ file, SymbolFile.parse written.symbols = .ok file ∧ SymbolFile.parse written'.symbols =
      .ok { file.moved token with digest := Sha1.digest written'.image }

/-- What a return in front makes of a body, of its encoding, and of the symbols of its module. -/
structure MovedByReturn (body : Body) (encoded : EncodedBody) (returning : Body) (encoded' : EncodedBody) :
    Prop where
  inserted : body.insert 0 returnInstruction = .ok returning
  accepted : returning.encode = .ok encoded'
  code : encoded'.code.bytes = 0x2A :: encoded.code.bytes
  offsets : encoded'.code.offsets.toList = 0 :: encoded.code.offsets.toList.map (· + 1)
  clauses : ∃ clauses, body.clauses encoded.code = .ok clauses ∧
    encoded.bytes = body.assemble encoded.code clauses ∧
    returning.clauses encoded'.code = .ok (clauses.map Clause.moved) ∧
    encoded'.bytes = returning.assemble encoded'.code (clauses.map Clause.moved)
  symbols : ∀ module module' token method, module.OwnsTokens → module.method? token = some method →
    method.body = some body → module.insertInstruction token 0 returnInstruction = .ok module' →
    SymbolsMove module module' token

/-- A return in front of a body moves its code, its clauses and its source spans by one byte. -/
theorem insert_return_moves {encoded : EncodedBody} (h : body.encode = .ok encoded)
    (hsize : encoded.code.size < 2 ^ 32 - 1) :
    ∃ returning encoded', MovedByReturn body encoded returning encoded' := by
  have hfits := Body.encode_ok h
  have hcode : encoded.code.size + 1 < codeLimit := by
    have hlimit : codeLimit = 2 ^ 32 := rfl
    omega
  have hreturning : body.returning.Fits encoded.code.behindReturn := hfits.returning (by
    rw [Body.codeSize_returning, ← (Code.encode_ok hfits.encodes).2.1]
    exact hcode)
  obtain ⟨encoded', hencoded'⟩ := hreturning.exists_encode
  have hcode' : encoded'.code = encoded.code.behindReturn := by
    have hencodes := (Body.encode_ok hencoded').encodes
    rw [hreturning.encodes, Except.ok.injEq] at hencodes
    exact hencodes.symm
  obtain ⟨clauses, hc, hbytes⟩ := Body.encode_parts h
  obtain ⟨clauses', hc', hbytes'⟩ := Body.encode_parts hencoded'
  have hmoved := Body.clauses_returning hfits hcode hc
  rw [hcode', hmoved, Except.ok.injEq] at hc'
  subst hc'
  refine ⟨body.returning, encoded', body.insert_return, hencoded', ?_, ?_, ⟨clauses, hc, hbytes, ?_, hbytes'⟩, ?_⟩
  · rw [hcode']
    rfl
  · rw [hcode']
    rfl
  · rw [hcode']
    exact hmoved
  · intro module module' token method hown hm hb hi
    obtain ⟨inserted, hinserted, hmodify⟩ := (Module.insertInstruction_eq_ok hm hb).mp hi
    rw [body.insert_return, Except.ok.injEq] at hinserted
    subst hinserted
    obtain ⟨hown', hrows⟩ := Module.methodRows_of_modifyMethod? hown hmodify
    obtain ⟨-, hsame, -, -⟩ := Module.modifyMethod?_spec hmodify
    have hsymbols : ∀ digest digest', moduleSymbols module' digest' =
        { (moduleSymbols module digest).moved token with digest := digest' } := by
      intro digest digest'
      rw [moduleSymbols, methodList_returning hown hm hb hrows, hsame]
      rfl
    constructor
    · intro bodies digest file hbodies hfile
      obtain ⟨hk, hcount, rfl⟩ := (symbolFile_eq_ok hown hbodies).mp hfile
      obtain ⟨bodies', hbodies'⟩ := encodeBodies_returning hrows hbodies ⟨encoded', hencoded'⟩
      refine ⟨bodies', hbodies', fun digest' => (symbolFile_eq_ok hown' hbodies').mpr ⟨?_, ?_, ?_⟩⟩
      · exact documentsKnown_returning hown hm hb hrows (by rw [hsame]) hk
      · exact countable_moved hcount token digest'
      · exact (hsymbols digest digest').symm
    · intro written written' hw hw'
      obtain ⟨-, -, -, -, -, hparse⟩ := write_eq_ok hown hw
      obtain ⟨-, -, -, -, -, hparse'⟩ := write_eq_ok hown' hw'
      refine ⟨_, hparse, ?_⟩
      rw [hparse', hsymbols (Sha1.digest written.image)]

/-- A body with a branch back, a filtered region and a final region that ends with the body. -/
def guardedSample : Body where
  instructions := [{ opcode := .nop }, { opcode := .brS, operand := .target 0 }, { opcode := .ldcI40 },
    { opcode := .pop }, { opcode := .ret }, { opcode := .endfinally }]
  handlers := [
    { flags := .filterBlock, tryStart := 0, tryEnd := 2, handlerStart := 3, handlerEnd := 5, filterStart := some 2 },
    { flags := .finallyBlock, tryStart := 0, tryEnd := 5, handlerStart := 5, handlerEnd := 6 }]

theorem insert_return_moves_guardedSample : ∃ encoded, guardedSample.encode = .ok encoded ∧
    encoded.code.size < 2 ^ 32 - 1 ∧
    ∃ returning encoded', MovedByReturn guardedSample encoded returning encoded' := by
  have hok : guardedSample.encode.toOption.any (·.code.size < 2 ^ 32 - 1) = true := by decide
  rcases he : guardedSample.encode with error | encoded
  · rw [he] at hok
    cases hok
  · rw [he] at hok
    have hsize : encoded.code.size < 2 ^ 32 - 1 := by simpa [Except.toOption] using hok
    exact ⟨encoded, rfl, hsize, insert_return_moves he hsize⟩

end Image
end HotPatch
