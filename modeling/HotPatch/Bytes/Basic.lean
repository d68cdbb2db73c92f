/-!
# Byte sequences

Everything that is written is a list of bytes. This file holds fixed-width
little-endian numbers, the text encoding, padding to a multiple of four, and
the two ways of reading: taking exactly `n` bytes off the front, and cutting a
range out of the middle. Both refuse to run past the end.
-/

namespace HotPatch

abbrev Bytes := List UInt8

namespace Bytes

/-- The `width` least significant base-256 digits of a number, lowest first. -/
def littleEndian : Nat → Nat → Bytes
  | 0, _ => []
  | width + 1, n => UInt8.ofNat n :: littleEndian width (n / 256)

/-- The number whose base-256 digits are the given bytes, lowest first. -/
def ofLittleEndian : Bytes → Nat
  | [] => 0
  | b :: rest => b.toNat + 256 * ofLittleEndian rest

@[simp] theorem length_littleEndian (width n : Nat) : (littleEndian width n).length = width := by
  induction width generalizing n with
  | zero => rfl
  | succ width ih => simp [littleEndian, ih]

def ofText (text : String) : Bytes := text.toUTF8.data.toList

/-- The text that the bytes spell in UTF-8, if they spell one. -/
def toText? (bytes : Bytes) : Option String := String.fromUTF8? ⟨bytes.toArray⟩

/-- The least multiple of four that is at least `n`. -/
def alignFour (n : Nat) : Nat := (n + 3) / 4 * 4

def padToFour (fill : UInt8) (bytes : Bytes) : Bytes :=
  bytes ++ List.replicate (alignFour bytes.length - bytes.length) fill

/-- Splits off exactly `n` bytes, or fails if there are fewer. -/
def take? : Nat → Bytes → Option (Bytes × Bytes)
  | 0, bytes => some ([], bytes)
  | _ + 1, [] => none
  | n + 1, b :: rest => (take? n rest).map fun (front, back) => (b :: front, back)

theorem append_of_take? {n : Nat} {bytes front back : Bytes}
    (h : take? n bytes = some (front, back)) : front ++ back = bytes ∧ front.length = n := by
  induction n generalizing bytes front with
  | zero => simp only [take?, Option.some.injEq, Prod.mk.injEq] at h; simp [← h.1, ← h.2]
  | succ n ih =>
    cases bytes with
    | nil => simp [take?] at h
    | cons b rest =>
      simp only [take?, Option.map_eq_some_iff] at h
      obtain ⟨⟨f, k⟩, hf, he⟩ := h
      simp only [Prod.mk.injEq] at he
      obtain ⟨rfl, rfl⟩ := he
      obtain ⟨h1, h2⟩ := ih hf
      simp [h1, h2]

theorem take?_append (front back : Bytes) : take? front.length (front ++ back) = some (front, back) := by
  induction front with
  | nil => rfl
  | cons b front ih => simp [take?, ih]

/-- The bytes from `start` up to `stop`, if the range lies inside. -/
def slice? (bytes : Bytes) (start stop : Nat) : Option Bytes :=
  if start ≤ stop ∧ stop ≤ bytes.length then some ((bytes.drop start).take (stop - start)) else none

end Bytes
end HotPatch
