import HotPatch.Body.Encode
import HotPatch.Proofs.Code.EncodedSize

/-!
# When a body can be encoded

Targets, operands, protected regions and the size of the code decide whether a
body can be encoded. The size of an encoded body is known beforehand.
-/

namespace HotPatch

variable {body : Body} {code : Code.EncodedCode} {handler : Handler}

/-- The bounds of a region lie inside a body of the given length, in their order. -/
structure Handler.Ranged (handler : Handler) (length : Nat) : Prop where
  tried : handler.tryStart < handler.tryEnd
  tryEnd : handler.tryEnd ≤ length
  handled : handler.handlerStart < handler.handlerEnd
  handlerEnd : handler.handlerEnd ≤ length

/-- A region with a filter says where the filter starts. -/
def Handler.Filtered (handler : Handler) (length : Nat) : Prop :=
  handler.flags.contains .filterBlock → ∃ start, handler.filterStart = some start ∧ start ≤ length

theorem Handler.checkRanges_eq_ok {length : Nat} : handler.checkRanges length = .ok () ↔ handler.Ranged length := by
  unfold checkRanges
  rcases hf : handler.bounds.find? (length < ·) with - | bound
  · simp only [bounds, List.find?_eq_none, List.forall_mem_cons, decide_eq_true_eq] at hf
    obtain ⟨-, htry, -, hhandler, -⟩ := hf
    dsimp only
    split_ifs with he
    · refine ⟨fun h => (nomatch h), fun h => ?_⟩
      have htried := h.tried
      have hhandled := h.handled
      omega
    · exact ⟨fun _ => ⟨by omega, by omega, by omega, by omega⟩, fun _ => rfl⟩
  · refine ⟨fun h => (nomatch h), fun h => ?_⟩
    have hlt := List.find?_some hf
    have hm := List.mem_of_find?_eq_some hf
    obtain ⟨htried, htry, hhandled, hhandler⟩ := h
    simp only [bounds, List.mem_cons, List.not_mem_nil, or_false, decide_eq_true_eq] at hm hlt
    omega

theorem Handler.Ranged.bound_le {length bound : Nat} (h : handler.Ranged length) (hb : bound ∈ handler.bounds) :
    bound ≤ length := by
  obtain ⟨htried, htry, hhandled, hhandler⟩ := h
  simp only [bounds, List.mem_cons, List.not_mem_nil, or_false] at hb
  omega

theorem Body.checkTargets_eq_ok : body.checkTargets = .ok () ↔
    (∀ instruction ∈ body.instructions, ∀ target, instruction.target? = some target →
      target < body.instructions.length) ∧
      ∀ handler ∈ body.handlers, handler.Ranged body.instructions.length := by
  have hbranches : body.checkBranches = .ok () ↔ ∀ instruction ∈ body.instructions, ∀ target,
      instruction.target? = some target → target < body.instructions.length := by
    unfold checkBranches
    dsimp only
    split
    · rename_i target hf
      refine ⟨fun h => (nomatch h), fun h => ?_⟩
      obtain ⟨instruction, hi, ht⟩ := List.mem_filterMap.mp (List.mem_of_find?_eq_some hf)
      have hle := List.find?_some hf
      rw [decide_eq_true_eq] at hle
      have hlt := h instruction hi target ht
      omega
    · rename_i hf
      simp only [List.find?_eq_none, List.mem_filterMap, decide_eq_true_eq] at hf
      exact ⟨fun _ instruction hi target ht => by simpa using hf target ⟨instruction, hi, ht⟩, fun _ => rfl⟩
  rw [← hbranches]
  simp only [← Handler.checkRanges_eq_ok]
  rw [← forM_eq_ok, checkTargets, bind_eq_ok]
  exact ⟨fun ⟨_, hb, hh⟩ => ⟨hb, hh⟩, fun ⟨hb, hh⟩ => ⟨(), hb, hh⟩⟩

section Regions

variable (hc : Code.encode body.instructions = .ok code) (hsize : code.size < Code.codeLimit)

include hc hsize

theorem exists_handlerOffset {position : Nat} :
    (∃ offset, handlerOffset code position = .ok offset) ↔ position ≤ body.instructions.length := by
  rw [← Code.EncodedCode.offsetOf?_isSome hc hsize]
  unfold handlerOffset
  rcases code.offsetOf? position with - | offset
  · simp [malformed]
  · exact ⟨fun _ => rfl, fun _ => ⟨offset, rfl⟩⟩

theorem exists_classOrFilter :
    (∃ last, handler.classOrFilter code = .ok last) ↔ handler.Filtered body.instructions.length := by
  unfold Handler.classOrFilter Handler.Filtered
  split_ifs with hf
  · rcases handler.filterStart with - | start
    · simp [hf, malformed]
    · simp only [hf, true_implies, Option.some.injEq, exists_eq_left']
      exact exists_handlerOffset hc hsize
  · simp [hf]

theorem Handler.exists_encode (hr : handler.Ranged body.instructions.length) :
    (∃ bytes, handler.encode code = .ok bytes) ↔ handler.Filtered body.instructions.length := by
  rw [← exists_classOrFilter hc hsize]
  constructor
  · rintro ⟨bytes, h⟩
    obtain ⟨_, -, h⟩ := bind_eq_ok.mp h
    obtain ⟨_, -, h⟩ := bind_eq_ok.mp h
    obtain ⟨_, -, h⟩ := bind_eq_ok.mp h
    obtain ⟨_, -, h⟩ := bind_eq_ok.mp h
    obtain ⟨last, hl, -⟩ := bind_eq_ok.mp h
    exact ⟨last, hl⟩
  · rintro ⟨last, hl⟩
    have htry := hr.tryEnd
    have hhandler := hr.handlerEnd
    obtain ⟨tryStart, h₁⟩ := (exists_handlerOffset hc hsize).mpr (hr.tried.le.trans htry)
    obtain ⟨tryEnd, h₂⟩ := (exists_handlerOffset hc hsize).mpr htry
    obtain ⟨handlerStart, h₃⟩ := (exists_handlerOffset hc hsize).mpr (hr.handled.le.trans hhandler)
    obtain ⟨handlerEnd, h₄⟩ := (exists_handlerOffset hc hsize).mpr hhandler
    exact ⟨_, bind_eq_ok.mpr ⟨_, h₁, bind_eq_ok.mpr ⟨_, h₂, bind_eq_ok.mpr ⟨_, h₃,
      bind_eq_ok.mpr ⟨_, h₄, bind_eq_ok.mpr ⟨last, hl, rfl⟩⟩⟩⟩⟩⟩

theorem exists_encodeHandlers {handlers : List Handler}
    (hr : ∀ handler ∈ handlers, handler.Ranged body.instructions.length) :
    (∃ bytes, encodeHandlers handlers code = .ok bytes) ↔ 4 + handlers.length * 24 < handlerSectionLimit ∧
      ∀ handler ∈ handlers, handler.Filtered body.instructions.length := by
  have hall : (∃ clauses, handlers.mapM (·.encode code) = .ok clauses) ↔
      ∀ handler ∈ handlers, handler.Filtered body.instructions.length := by
    rw [exists_mapM_eq_ok]
    exact forall₂_congr fun handler hm => Handler.exists_encode hc hsize (hr handler hm)
  rw [← hall]
  unfold encodeHandlers
  dsimp only
  split_ifs with hl
  · refine ⟨fun ⟨bytes, h⟩ => ?_, fun ⟨_, clauses, h⟩ => ⟨_, bind_eq_ok.mpr ⟨clauses, h, rfl⟩⟩⟩
    obtain ⟨clauses, h, -⟩ := bind_eq_ok.mp h
    exact ⟨hl, clauses, h⟩
  · simp [hl, malformed]

end Regions

namespace Body

/-- The number of bytes that the body takes, without what fills it up. -/
def encodedSize (body : Body) : Nat :=
  let size := Code.codeSize body.instructions
  if body.isTiny size then 1 + size
  else if body.handlers.isEmpty then 12 + size
  else Bytes.alignFour (12 + size) + (4 + body.handlers.length * 24)

theorem isTiny_iff {size : Nat} : body.isTiny size = true ↔ size < 64 ∧ body.maxStack.toNat ≤ 8 ∧
    body.locals = none ∧ body.handlers = [] ∧ body.initLocals = false := by
  simp [isTiny, and_assoc, UInt16.le_iff_toNat_le]

/-- What a body needs to be encoded. -/
structure Fits (body : Body) (code : Code.EncodedCode) : Prop where
  targets : body.checkTargets = .ok ()
  encodes : Code.encode body.instructions = .ok code
  size : code.size < Code.codeLimit
  count : 4 + body.handlers.length * 24 < handlerSectionLimit
  filtered : ∀ handler ∈ body.handlers, handler.Filtered body.instructions.length

theorem encode_ok {encoded : EncodedBody} (h : body.encode = .ok encoded) : body.Fits encoded.code := by
  obtain ⟨⟨⟩, ht, h⟩ := bind_eq_ok.mp h
  obtain ⟨code, hc, h⟩ := bind_eq_ok.mp h
  have hranged := (checkTargets_eq_ok.mp ht).2
  have hplain (hempty : body.handlers = []) (hsize : code.size < Code.codeLimit) : body.Fits code :=
    ⟨ht, hc, hsize, by rw [hempty]; decide, by simp [hempty]⟩
  split_ifs at h with hsmall hsize hempty
  · cases h
    obtain ⟨hshort, -, -, hempty, -⟩ := isTiny_iff.mp hsmall
    exact hplain hempty (Nat.lt_trans hshort (by decide))
  · cases h
    exact hplain (List.isEmpty_iff.mp hempty) hsize
  · obtain ⟨bytes, hb, h⟩ := bind_eq_ok.mp h
    cases h
    obtain ⟨hcount, hfiltered⟩ := (exists_encodeHandlers hc hsize hranged).mp ⟨bytes, hb⟩
    exact ⟨ht, hc, hsize, hcount, hfiltered⟩
  · cases h

theorem Fits.exists_encode (h : body.Fits code) : ∃ encoded, body.encode = .ok encoded := by
  have hranged := (checkTargets_eq_ok.mp h.targets).2
  obtain ⟨bytes, hb⟩ := (exists_encodeHandlers h.encodes h.size hranged).mpr ⟨h.count, h.filtered⟩
  suffices hencode : ∃ encoded, (if body.isTiny code.size then
        return ⟨UInt8.ofNat (code.size * 4 + 2) :: code.bytes, code⟩
      else if code.size < Code.codeLimit then
        let plain := body.header code.size ++ code.bytes
        if body.handlers.isEmpty then return ⟨plain, code⟩
        else return ⟨Bytes.padToFour 0 plain ++ (← encodeHandlers body.handlers code), code⟩
      else malformed .bodySize : Result EncodedBody) = .ok encoded by
    obtain ⟨encoded, he⟩ := hencode
    exact ⟨encoded, bind_eq_ok.mpr ⟨(), h.targets, bind_eq_ok.mpr ⟨code, h.encodes, he⟩⟩⟩
  simp only [if_pos h.size]
  split_ifs
  · exact ⟨_, rfl⟩
  · exact ⟨_, rfl⟩
  · exact ⟨_, bind_eq_ok.mpr ⟨bytes, hb, rfl⟩⟩

end Body

theorem Bytes.alignFour_mod (n : Nat) : alignFour n % 4 = 0 := Nat.mul_mod_left _ _

theorem length_padToFour (fill : UInt8) (bytes : Bytes) :
    (Bytes.padToFour fill bytes).length = Bytes.alignFour bytes.length := by
  rw [Bytes.padToFour, List.length_append, List.length_replicate, Bytes.alignFour]
  omega

theorem Handler.length_encode {bytes : Bytes} (h : handler.encode code = .ok bytes) : bytes.length = 24 := by
  obtain ⟨_, -, h⟩ := bind_eq_ok.mp h
  obtain ⟨_, -, h⟩ := bind_eq_ok.mp h
  obtain ⟨_, -, h⟩ := bind_eq_ok.mp h
  obtain ⟨_, -, h⟩ := bind_eq_ok.mp h
  obtain ⟨_, -, h⟩ := bind_eq_ok.mp h
  cases h
  simp

theorem length_clauses {handlers : List Handler} {clauses : List Bytes}
    (h : List.Forall₂ (fun handler bytes => Handler.encode code handler = .ok bytes) handlers clauses) :
    clauses.flatten.length = handlers.length * 24 := by
  induction h with
  | nil => rfl
  | cons hfirst _ ih =>
    rw [List.flatten_cons, List.length_append, Handler.length_encode hfirst, ih, List.length_cons]
    omega

theorem length_encodeHandlers {handlers : List Handler} {bytes : Bytes}
    (h : encodeHandlers handlers code = .ok bytes) : bytes.length = 4 + handlers.length * 24 := by
  unfold encodeHandlers at h
  dsimp only at h
  split_ifs at h
  · obtain ⟨clauses, hc, h⟩ := bind_eq_ok.mp h
    cases h
    have hflat := length_clauses (mapM_eq_ok.mp hc)
    simp only [List.cons_append, List.length_cons, List.length_append, Bytes.length_littleEndian, hflat]
    omega
  · cases h

@[simp] theorem Body.length_header (body : Body) (size : Nat) : (body.header size).length = 12 := by
  simp only [header, List.length_append, Bytes.length_littleEndian]

/-- An encoded body has the size that was announced. -/
theorem Body.length_encode {encoded : EncodedBody} (h : body.encode = .ok encoded) :
    encoded.bytes.length = body.encodedSize := by
  obtain ⟨⟨⟩, -, h⟩ := bind_eq_ok.mp h
  obtain ⟨code, hc, h⟩ := bind_eq_ok.mp h
  have hsize := (Code.encode_ok hc).2.1
  have hlength : code.bytes.length = code.size := rfl
  unfold encodedSize
  rw [hsize] at h hlength
  dsimp only at h ⊢
  have hplain : (body.header (Code.codeSize body.instructions) ++ code.bytes).length =
      12 + Code.codeSize body.instructions := by
    rw [List.length_append, length_header, hlength]
  split_ifs at h ⊢ with hsmall hempty hlimit
  · cases h
    rw [List.length_cons, hlength]
    omega
  · cases h
    exact hplain
  · cases h
  · obtain ⟨bytes, hb, h⟩ := bind_eq_ok.mp h
    cases h
    rw [List.length_append, length_padToFour, hplain, length_encodeHandlers hb]
  · cases h

end HotPatch
