import HotPatch.Bytes.Compressed
import HotPatch.Proofs.Bytes.Recognition

/-!
# The forms of a compressed number

The bits of a compressed number stand behind a marker that tells how many bytes
there are, most significant byte first. A number that a narrow form can hold has
wider forms as well. Reading accepts every form and nothing else, and writing
takes the narrowest.
-/

namespace HotPatch.Bytes

/-- How many bytes a compressed number takes. -/
inductive Width where
  | one
  | two
  | four

namespace Width

variable {width : Width} {value : Nat}

def size : Width → Nat
  | one => 1
  | two => 2
  | four => 4

/-- The leading bits, which tell the widths apart. -/
def marker : Width → Nat
  | one => 0b0
  | two => 0b10
  | four => 0b110

/-- How many bits the marker leaves to the number. -/
def payload : Width → Nat
  | one => 7
  | two => 14
  | four => 29

/-- The bits of the number behind those of the marker. -/
def word (width : Width) (value : Nat) : Nat := width.marker <<< width.payload ||| value

def bytes (width : Width) (value : Nat) : Bytes := (littleEndian width.size (width.word value)).reverse

@[simp] theorem length_bytes : (width.bytes value).length = width.size := by
  rw [bytes, List.length_reverse, length_littleEndian]

/-- The bits of the number and those of the marker do not meet. -/
theorem word_eq (h : value < 2 ^ width.payload) : width.word value = width.marker * 2 ^ width.payload + value := by
  rw [word, ← Nat.shiftLeft_add_eq_or_of_lt h, Nat.shiftLeft_eq]

/-- Bytes that spell the word, most significant first, are the form of the number. -/
theorem eq_bytes {front : Bytes} (h : value < 2 ^ width.payload) (hlength : front.length = width.size)
    (hword : ofLittleEndian front.reverse = width.marker * 2 ^ width.payload + value) :
    front = width.bytes value := by
  rw [bytes, word_eq h, ← hword, ← hlength, ← List.length_reverse, littleEndian_ofLittleEndian, List.reverse_reverse]

theorem bytes_one (h : value < 2 ^ 7) : one.bytes value = [UInt8.ofNat value] := by
  apply (eq_bytes h rfl _).symm
  simp only [List.reverse_singleton, ofLittleEndian, UInt8.toNat_ofNat', marker, payload]
  omega

theorem bytes_two (h : value < 2 ^ 14) :
    two.bytes value = [UInt8.ofNat (0x80 + value / 256), UInt8.ofNat value] := by
  apply (eq_bytes h rfl _).symm
  simp only [List.reverse_cons, List.reverse_nil, List.nil_append, List.cons_append, ofLittleEndian,
    UInt8.toNat_ofNat', marker, payload]
  omega

theorem bytes_four (h : value < 2 ^ 29) :
    four.bytes value = [UInt8.ofNat (0xC0 + value / 0x1000000), UInt8.ofNat (value / 0x10000),
      UInt8.ofNat (value / 256), UInt8.ofNat value] := by
  apply (eq_bytes h rfl _).symm
  simp only [List.reverse_cons, List.reverse_nil, List.nil_append, List.cons_append, ofLittleEndian,
    UInt8.toNat_ofNat', marker, payload]
  omega

/-- The markers leave the upper values of the first byte free. -/
theorem exists_head_bytes (h : value < 2 ^ width.payload) :
    ∃ first, (width.bytes value).head? = some first ∧ first.toNat < 0xE0 := by
  cases width with
  | one =>
    change value < 2 ^ 7 at h
    rw [bytes_one h]
    refine ⟨_, rfl, ?_⟩
    rw [UInt8.toNat_ofNat']
    omega
  | two =>
    change value < 2 ^ 14 at h
    rw [bytes_two h]
    refine ⟨_, rfl, ?_⟩
    rw [UInt8.toNat_ofNat']
    omega
  | four =>
    change value < 2 ^ 29 at h
    rw [bytes_four h]
    refine ⟨_, rfl, ?_⟩
    rw [UInt8.toNat_ofNat']
    omega

/-- The narrowest width for a number, and the widest for one that no width can hold. -/
def narrowest (value : Nat) : Width :=
  if value < 2 ^ one.payload then one else if value < 2 ^ two.payload then two else four

theorem narrowest_le (h : value < 2 ^ width.payload) : (narrowest value).size ≤ width.size := by
  unfold narrowest
  split_ifs with hone htwo
  · cases width <;> decide
  · cases width with
    | one => exact absurd h hone
    | two | four => decide
  · cases width with
    | one => exact absurd h hone
    | two => exact absurd h htwo
    | four => decide

end Width

/-- A number in one of its forms. -/
structure Numeral where
  width : Width
  value : Nat
  fits : value < 2 ^ width.payload

namespace Numeral

def bytes (numeral : Numeral) : Bytes := numeral.width.bytes numeral.value

theorem value_le (numeral : Numeral) : numeral.value ≤ compressedMax := by
  have hpayload : numeral.width.payload ≤ 29 := by cases numeral.width <;> decide
  have hpow : 2 ^ numeral.width.payload ≤ 2 ^ 29 := Nat.pow_le_pow_right (by decide) hpayload
  exact Nat.le_pred_of_lt (numeral.fits.trans_le hpow)

/-- The narrowest form of the number, or of the greatest number that has a form. -/
def narrowest (value : Nat) : Numeral where
  width := .narrowest value
  value := min value compressedMax
  fits := by
    unfold Width.narrowest
    split_ifs with hone htwo
    · exact Nat.lt_of_le_of_lt (Nat.min_le_left value compressedMax) hone
    · exact Nat.lt_of_le_of_lt (Nat.min_le_left value compressedMax) htwo
    · exact Nat.lt_of_le_of_lt (Nat.min_le_right value compressedMax) (by decide)

theorem value_narrowest {value : Nat} (h : value ≤ compressedMax) : (narrowest value).value = value :=
  Nat.min_eq_left h

theorem exists_head_bytes (numeral : Numeral) :
    ∃ first, numeral.bytes.head? = some first ∧ first.toNat < 0xE0 :=
  Width.exists_head_bytes numeral.fits

end Numeral

/-- Writing takes the narrowest form. -/
theorem compressed_eq (value : Nat) : compressed value = (Numeral.narrowest value).bytes := by
  change compressed value = (Width.narrowest value).bytes (min value compressedMax)
  have hone : value ≤ 0x7F ↔ value < 2 ^ Width.one.payload := Nat.lt_succ_iff.symm
  have htwo : value ≤ 0x3FFF ↔ value < 2 ^ Width.two.payload := Nat.lt_succ_iff.symm
  unfold compressed Width.narrowest
  simp only [hone, htwo]
  split_ifs with hsmall hmiddle
  · have hmin : min value compressedMax = value := Nat.min_eq_left (hsmall.le.trans (by decide))
    rw [hmin, Width.bytes_one hsmall]
  · have hmin : min value compressedMax = value := Nat.min_eq_left (hmiddle.le.trans (by decide))
    rw [hmin, Width.bytes_two hmiddle]
  · have hfits : min value compressedMax < 2 ^ 29 := Nat.lt_succ_of_le (Nat.min_le_right value compressedMax)
    rw [Width.bytes_four hfits]

/-- Every form is read. -/
theorem uncompress?_bytes (numeral : Numeral) (rest : Bytes) :
    uncompress? (numeral.bytes ++ rest) = some (numeral.value, rest) := by
  obtain ⟨width, value, fits⟩ := numeral
  change uncompress? (width.bytes value ++ rest) = some (value, rest)
  cases width with
  | one =>
    change value < 2 ^ 7 at fits
    simp only [Width.bytes_one fits, List.cons_append, List.nil_append, uncompress?, UInt8.toNat_ofNat']
    rw [if_pos (by omega), Nat.mod_eq_of_lt (by omega)]
  | two =>
    change value < 2 ^ 14 at fits
    simp only [Width.bytes_two fits, List.cons_append, List.nil_append, uncompress?, UInt8.toNat_ofNat']
    rw [if_neg (by omega), if_pos (by omega)]
    simp only [Option.some.injEq, Prod.mk.injEq, and_true]
    omega
  | four =>
    change value < 2 ^ 29 at fits
    simp only [Width.bytes_four fits, List.cons_append, List.nil_append, uncompress?, UInt8.toNat_ofNat']
    rw [if_neg (by omega), if_neg (by omega), if_pos (by omega)]
    simp only [Option.some.injEq, Prod.mk.injEq, and_true]
    omega

/-- What is read opens with a form of the number. -/
theorem exists_numeral {input rest : Bytes} {value : Nat} (h : uncompress? input = some (value, rest)) :
    ∃ numeral : Numeral, numeral.value = value ∧ input = numeral.bytes ++ rest := by
  unfold uncompress? at h
  split at h
  · cases h
  rename_i a tail
  have ha := a.toNat_lt
  split_ifs at h with hone htwo hfour
  · cases h
    have hform : [a] = Width.one.bytes a.toNat := Width.eq_bytes hone rfl (by simp [ofLittleEndian, Width.marker])
    exact ⟨⟨.one, _, hone⟩, rfl, congrArg (· ++ rest) hform⟩
  · split at h <;> cases h
    rename_i b
    have hb := b.toNat_lt
    have hfits : (a.toNat - 0x80) * 256 + b.toNat < 2 ^ 14 := by omega
    have hform : [a, b] = Width.two.bytes _ := Width.eq_bytes hfits rfl (by
      simp only [List.reverse_cons, List.reverse_nil, List.nil_append, List.cons_append, ofLittleEndian,
        Width.marker, Width.payload]
      omega)
    exact ⟨⟨.two, _, hfits⟩, rfl, congrArg (· ++ rest) hform⟩
  · split at h <;> cases h
    rename_i b c d
    have hb := b.toNat_lt
    have hc := c.toNat_lt
    have hd := d.toNat_lt
    have hfits : (((a.toNat - 0xC0) * 256 + b.toNat) * 256 + c.toNat) * 256 + d.toNat < 2 ^ 29 := by omega
    have hform : [a, b, c, d] = Width.four.bytes _ := Width.eq_bytes hfits rfl (by
      simp only [List.reverse_cons, List.reverse_nil, List.nil_append, List.cons_append, ofLittleEndian,
        Width.marker, Width.payload]
      omega)
    exact ⟨⟨.four, _, hfits⟩, rfl, congrArg (· ++ rest) hform⟩

/-- Reading accepts the forms of numbers and nothing else. -/
theorem uncompress?_eq_some {input rest : Bytes} {value : Nat} : uncompress? input = some (value, rest) ↔
    ∃ numeral : Numeral, numeral.value = value ∧ input = numeral.bytes ++ rest := by
  constructor
  · exact exists_numeral
  · rintro ⟨numeral, rfl, rfl⟩
    exact uncompress?_bytes numeral rest

/-- A wide form of a small number. -/
example : uncompress? [0xC0, 0x00, 0x00, 0x05, 0xFF] = some (5, [0xFF]) := by decide

/-- What is read is the number that was written, or the greatest if that was too great. -/
theorem uncompress?_min (value : Nat) (rest : Bytes) :
    uncompress? (compressed value ++ rest) = some (min value compressedMax, rest) := by
  rw [compressed_eq]
  exact uncompress?_bytes (Numeral.narrowest value) rest

theorem uncompress?_compressed {value : Nat} (h : value ≤ compressedMax) (rest : Bytes) :
    uncompress? (compressed value ++ rest) = some (value, rest) := by
  rw [uncompress?_min, Nat.min_eq_left h]

/-- A compressed number is within the bound. -/
theorem le_of_uncompress? {input rest : Bytes} {value : Nat} (h : uncompress? input = some (value, rest)) :
    value ≤ compressedMax := by
  obtain ⟨numeral, rfl, -⟩ := exists_numeral h
  exact numeral.value_le

/-- The first byte of a compressed number leaves the upper values free. -/
theorem exists_head_compressed (value : Nat) :
    ∃ first, (compressed value).head? = some first ∧ first.toNat < 0xE0 := by
  rw [compressed_eq]
  exact (Numeral.narrowest value).exists_head_bytes

end HotPatch.Bytes
