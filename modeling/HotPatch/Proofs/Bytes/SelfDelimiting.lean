import HotPatch.Proofs.Bytes.CompressedReader

/-!
# Encodings that show where they end

A reader that takes a value back whatever follows it needs no mark between two
values, so values that stand one behind the other come apart in one way only.
Compressed numbers and counted strings are of this kind, and a number is written
in the narrowest of its forms.
-/

namespace HotPatch

open Bytes (Numeral TextSpelling Width)

/-- Values whose encodings stand one behind the other come apart in one way only. -/
def UniquelyDecodable {α : Type} (encode : α → Bytes) (narrow : α → Prop) : Prop :=
  ∀ values others : List α, (∀ value ∈ values, narrow value) → (∀ other ∈ others, narrow other) →
    values.flatMap encode = others.flatMap encode → values = others

theorem UniquelyDecodable.of_reads {α : Type} {encode : α → Bytes} {narrow : α → Prop} {reader : Reader α}
    (hreads : ∀ value, narrow value → Reads reader (encode value) value) (hne : ∀ value, encode value ≠ []) :
    UniquelyDecodable encode narrow := by
  intro values
  induction values with
  | nil =>
    intro others _ _ heq
    cases others with
    | nil => rfl
    | cons other others => exact absurd (List.append_eq_nil_iff.mp heq.symm).1 (hne other)
  | cons value values ih =>
    intro others hvalues hothers heq
    cases others with
    | nil => exact absurd (List.append_eq_nil_iff.mp heq).1 (hne value)
    | cons other others =>
      rw [List.forall_mem_cons] at hvalues hothers
      -- both readers stop at the same place, so what is left is the same as well
      obtain ⟨rfl, hrest⟩ := (hreads value hvalues.1).append_inj (hreads other hothers.1) heq
      rw [ih others hvalues.2 hothers.2 hrest]

namespace Bytes

theorem compressed_ne_nil (value : Nat) : compressed value ≠ [] := by
  obtain ⟨first, hfirst, -⟩ := exists_head_compressed value
  intro he
  rw [he] at hfirst
  cases hfirst

theorem countedText_ne_nil (text : Option String) : countedText text ≠ [] := by
  cases text with
  | none => exact List.cons_ne_nil _ _
  | some text => exact fun he => compressed_ne_nil _ (List.append_eq_nil_iff.mp he).1

/-- No width that can hold the number is narrower than the one that is written. -/
theorem exists_narrowest {value : Nat} (h : value ≤ compressedMax) : ∃ width : Width,
    value < 2 ^ width.payload ∧ compressed value = width.bytes value ∧
      ∀ other : Width, value < 2 ^ other.payload → (compressed value).length ≤ other.size := by
  have hform : compressed value = (Width.narrowest value).bytes value := by
    rw [compressed_eq, Numeral.bytes, Numeral.value_narrowest h]
    rfl
  have hfits := (Numeral.narrowest value).fits
  rw [Numeral.value_narrowest h] at hfits
  refine ⟨.narrowest value, hfits, hform, fun other hother => ?_⟩
  rw [hform, Width.length_bytes]
  exact Width.narrowest_le hother

end Bytes

/-- Numbers and strings that have a compressed form are read back whatever follows, by readers that accept the
forms of the format and nothing else; a number takes the narrowest form that can hold it, which leaves the upper
first bytes free, and rows of numbers or of strings come apart in one way only. -/
theorem compressed_self_delimiting (value : Nat) (text : Option String) (rest : Bytes)
    (hvalue : value ≤ Bytes.compressedMax)
    (htext : ∀ found, text = some found → (Bytes.ofText found).length ≤ Bytes.compressedMax) :
    (Recognizes Reader.compressed Numeral.bytes Numeral.value ∧
      Reader.compressed (Bytes.compressed value ++ rest) = .ok (value, rest) ∧
      UniquelyDecodable Bytes.compressed (· ≤ Bytes.compressedMax)) ∧
    ((∃ width : Width, value < 2 ^ width.payload ∧ Bytes.compressed value = width.bytes value ∧
        ∀ other : Width, value < 2 ^ other.payload → (Bytes.compressed value).length ≤ other.size) ∧
      ∃ first, (Bytes.compressed value).head? = some first ∧ first.toNat < 0xE0) ∧
    Recognizes Reader.countedText TextSpelling.bytesOrAbsent (Option.map TextSpelling.text) ∧
    Reader.countedText (Bytes.countedText text ++ rest) = .ok (text, rest) ∧
    UniquelyDecodable Bytes.countedText fun text =>
      ∀ found, text = some found → (Bytes.ofText found).length ≤ Bytes.compressedMax := by
  refine ⟨⟨Recognizes.compressed, Reads.compressed hvalue rest, ?_⟩,
    ⟨Bytes.exists_narrowest hvalue, Bytes.exists_head_compressed value⟩,
    Recognizes.countedText, Reads.countedText htext rest, ?_⟩
  · exact .of_reads (fun _ => Reads.compressed) Bytes.compressed_ne_nil
  · exact .of_reads (fun _ => Reads.countedText) Bytes.countedText_ne_nil

/-- The first number of four bytes and the empty string, in front of the byte that stands for no string. -/
theorem compressed_self_delimiting_boundary : 0x4000 ≤ Bytes.compressedMax ∧
    (∀ found, some "" = some found → (Bytes.ofText found).length ≤ Bytes.compressedMax) ∧
    Reader.compressed [0xC0, 0x00, 0x40, 0x00, 0xFF] = .ok (0x4000, [0xFF]) ∧
    Reader.countedText [0x00, 0xFF] = .ok (some "", [0xFF]) := by
  have hempty : ∀ found, some "" = some found → (Bytes.ofText found).length ≤ Bytes.compressedMax := by
    rintro _ ⟨⟩
    decide
  obtain ⟨⟨-, hnumber, -⟩, -, -, hstring, -⟩ := compressed_self_delimiting 0x4000 (some "") [0xFF] (by decide) hempty
  exact ⟨by decide, hempty, hnumber, hstring⟩

end HotPatch
