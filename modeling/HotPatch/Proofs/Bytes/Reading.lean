import HotPatch.Bytes.Reader
import HotPatch.Proofs.Results

/-!
# Readers and what they read

A reader reads a value from an encoding if it takes exactly the bytes of the
encoding off the front, whatever follows. Encodings that are read one after
another are read together, so a reader of a record needs one step per field.
-/

namespace HotPatch

namespace Bytes

theorem ofLittleEndian_littleEndian (width n : Nat) :
    ofLittleEndian (littleEndian width n) = n % 256 ^ width := by
  induction width generalizing n with
  | zero => simp [littleEndian, ofLittleEndian, Nat.mod_one]
  | succ width ih =>
    rw [littleEndian, ofLittleEndian, ih, UInt8.toNat_ofNat', show 256 ^ (width + 1) = 256 * 256 ^ width
      from Nat.pow_succ']
    exact Nat.mod_mul.symm

@[simp] theorem littleEndian_one (byte : UInt8) : littleEndian 1 byte.toNat = [byte] := by
  simp [littleEndian]

theorem toText?_ofText (text : String) : toText? (ofText text) = some text :=
  dif_pos text.isValidUTF8

end Bytes

/-- The reader takes exactly the encoding off the front and answers the value. -/
def Reads {α : Type} (reader : Reader α) (encoded : Bytes) (value : α) : Prop :=
  ∀ rest, reader (encoded ++ rest) = .ok (value, rest)

namespace Reads

variable {α β : Type} {reader : Reader α} {next : α → Reader β} {encoded more : Bytes} {value : α} {result : β}

theorem pure (value : α) : Reads (Pure.pure value) [] value := fun _ => rfl

theorem bind (h : Reads reader encoded value) (h' : Reads (next value) more result) :
    Reads (reader >>= next) (encoded ++ more) result := by
  intro rest
  rw [List.append_assoc]
  exact bind_eq_ok.mpr ⟨(value, more ++ rest), h (more ++ rest), h' rest⟩

/-- A step that looks at what was read and takes nothing. -/
theorem map (h : Reads reader encoded value) (h' : Reads (next value) [] result) :
    Reads (reader >>= next) encoded result := by
  rw [← List.append_nil encoded]
  exact h.bind h'

/-- A look at what was read before. -/
theorem lift {result : Result α} (h : result = .ok value) : Reads (liftM result) [] value := by
  intro rest
  rw [h]
  rfl

theorem bytes (encoded : Bytes) : Reads (Reader.bytes encoded.length) encoded encoded := by
  intro rest
  rw [Reader.bytes, Bytes.take?_append]

theorem bytes_of_length {count : Nat} (h : encoded.length = count) :
    Reads (Reader.bytes count) encoded encoded := by
  subst h
  exact bytes encoded

/-- A number is written up to the width of the field. -/
theorem number_mod (width n : Nat) : Reads (Reader.number width) (Bytes.littleEndian width n) (n % 256 ^ width) := by
  refine map (bytes_of_length (Bytes.length_littleEndian width n)) ?_
  rw [Bytes.ofLittleEndian_littleEndian]
  exact pure _

theorem number {width n : Nat} (h : n < 256 ^ width) :
    Reads (Reader.number width) (Bytes.littleEndian width n) n := by
  have hread := number_mod width n
  rwa [Nat.mod_eq_of_lt h] at hread

/-- A number that takes one byte. -/
theorem byte {n : Nat} (h : n < 256) : Reads (Reader.number 1) [UInt8.ofNat n] n := number h

/-- A value that is written as a number. -/
theorem number_as {width n : Nat} {decode : Nat → α} (h : n < 256 ^ width) (hvalue : decode n = value) :
    Reads (return decode (← Reader.number width)) (Bytes.littleEndian width n) value := by
  apply map (number h)
  rw [hvalue]
  exact pure value

theorem vector {count : Nat} (value : Vector UInt8 count) : Reads (Reader.vector count) value.toList value := by
  refine map (bytes_of_length value.length_toList) ?_
  have hvalue : Vector.ofFn (fun index => value.toList.toArray.getD index.val 0) = value := by
    ext index hi
    simp
  dsimp only
  rw [hvalue]
  exact pure value

/-- Values that are read one after another, each from its own piece. -/
theorem times {pieces : List Bytes} {values : List α} (h : List.Forall₂ (Reads reader) pieces values) :
    Reads (Reader.times values.length reader) pieces.flatten values := by
  induction h with
  | nil => exact pure []
  | cons hfirst _ ih => exact hfirst.bind (ih.map (pure _))

/-- Values that are read one after another, with one way of encoding each. -/
theorem times_map {encode : α → Bytes} {values : List α} (h : ∀ value ∈ values, Reads reader (encode value) value) :
    Reads (Reader.times values.length reader) (values.flatMap encode) values := by
  rw [List.flatMap_def]
  apply times
  rw [List.forall₂_map_left_iff, List.forall₂_same]
  exact h

/-- A counted list of values with one way of encoding each. -/
theorem counted_map {encode : α → Bytes} {values : List α} (h : ∀ value ∈ values, Reads reader (encode value) value)
    (hlength : values.length < 2 ^ 32) :
    Reads (Reader.counted reader) (Bytes.littleEndian 4 values.length ++ values.flatMap encode) values :=
  (number hlength).bind (times_map h)

/-- Values that are read one after another, each from what it is encoded to. -/
theorem times_mapM {encode : α → Result Bytes} {values : List α} {pieces : List Bytes}
    (h : values.mapM encode = .ok pieces)
    (hreads : ∀ value ∈ values, ∀ piece ∈ pieces, encode value = .ok piece → Reads reader piece value) :
    Reads (Reader.times values.length reader) pieces.flatten values := by
  have hall : List.Forall₂ (fun piece value => encode value = .ok piece) pieces values := (mapM_eq_ok.mp h).flip
  apply times
  rw [List.forall₂_iff_zip] at hall ⊢
  refine ⟨hall.1, fun {piece value} hmem => ?_⟩
  obtain ⟨hp, hv⟩ := List.of_mem_zip hmem
  exact hreads value hv piece hp (hall.2 hmem)

/-- Without anything behind it, the whole encoding is read. -/
theorem run (h : Reads reader encoded value) : reader.run encoded = .ok (value, []) := by
  have hall := h []
  rwa [List.append_nil] at hall

end Reads

/-- Values of one kind and their blobs: which values have one, and that a reader takes the value back from
its blob, whatever follows, so that different values have different blobs. Values may have to be narrow
enough for the format. -/
structure ReadBack {α : Type} (encode : α → Result Bytes) (reader : Reader α) (narrow proper : α → Prop) :
    Prop where
  succeeds : ∀ value, narrow value → ((∃ blob, encode value = .ok blob) ↔ proper value)
  reads : ∀ value blob, narrow value → encode value = .ok blob → Reads reader blob value
  apart : ∀ first second blob, narrow first → narrow second → encode first = .ok blob →
    encode second = .ok blob → first = second

/-- What a reader takes back tells where its encoding ends. -/
theorem Reads.append_inj {α : Type} {reader : Reader α} {first second : α} {encoded more rest behind : Bytes}
    (h : Reads reader encoded first) (h' : Reads reader more second) (he : encoded ++ rest = more ++ behind) :
    first = second ∧ rest = behind := by
  have hread : reader (more ++ behind) = .ok (first, rest) := he ▸ h rest
  exact Prod.mk.inj (Except.ok.inj (hread.symm.trans (h' behind)))

/-- What a reader takes back from the same bytes is the same value. -/
theorem Reads.unique {α : Type} {reader : Reader α} {encoded : Bytes} {first second : α}
    (h : Reads reader encoded first) (h' : Reads reader encoded second) : first = second :=
  (h.append_inj h' (rfl : encoded ++ [] = encoded ++ [])).1

theorem ReadBack.of_reads {α : Type} {encode : α → Result Bytes} {reader : Reader α} {narrow proper : α → Prop}
    (hsucceeds : ∀ value, (∃ blob, encode value = .ok blob) ↔ proper value)
    (hreads : ∀ value blob, narrow value → encode value = .ok blob → Reads reader blob value) :
    ReadBack encode reader narrow proper where
  succeeds value _ := hsucceeds value
  reads := hreads
  apart first second blob hf hs h h' := (hreads first blob hf h).unique (hreads second blob hs h')

end HotPatch
