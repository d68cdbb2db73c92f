import HotPatch.Proofs.Code.EncodedSize
import Mathlib.Data.List.Basic

/-!
# Where instructions stand

An instruction stands behind the bytes of the instructions before it, and the
code ends behind the last one. Every instruction takes at least one byte, so
offsets grow with the index, and an index can be told from its offset.
-/

namespace HotPatch.Code

variable {instructions before after : List Instruction} {instruction : Instruction} {code : EncodedCode}
  {index first last : Nat}

theorem codeSize_append (before after : List Instruction) :
    codeSize (before ++ after) = codeSize before + codeSize after := by
  simp [codeSize]

/-- The number of bytes of the instructions before an index. -/
def offsetAt (instructions : List Instruction) (index : Nat) : Nat := codeSize (instructions.take index)

@[simp] theorem offsetAt_zero (instructions : List Instruction) : offsetAt instructions 0 = 0 := rfl

@[simp] theorem offsetAt_length (instructions : List Instruction) :
    offsetAt instructions instructions.length = codeSize instructions := by
  rw [offsetAt, List.take_length]

@[simp] theorem offsetAt_cons (instruction : Instruction) (instructions : List Instruction) (index : Nat) :
    offsetAt (instruction :: instructions) (index + 1) = instruction.size + offsetAt instructions index := by
  simp [offsetAt]

theorem offsetAt_succ (h : instructions[index]? = some instruction) :
    offsetAt instructions (index + 1) = offsetAt instructions index + instruction.size := by
  simp [offsetAt, List.take_add_one, h, codeSize_append]

theorem offsetAt_lt_offsetAt (h : first < last) (hlast : last ≤ instructions.length) :
    offsetAt instructions first < offsetAt instructions last := by
  have hsplit := List.take_append_drop first (instructions.take last)
  rw [List.take_take, Nat.min_eq_left h.le] at hsplit
  have hbetween := length_le_codeSize ((instructions.take last).drop first)
  rw [List.length_drop, List.length_take, Nat.min_eq_left hlast] at hbetween
  rw [offsetAt, offsetAt, ← hsplit, codeSize_append]
  omega

theorem offsetAt_le_codeSize (hindex : index ≤ instructions.length) :
    offsetAt instructions index ≤ codeSize instructions := by
  rw [← offsetAt_length]
  rcases hindex.lt_or_eq with h | rfl
  · exact (offsetAt_lt_offsetAt h le_rfl).le
  · exact le_rfl

theorem offsetsFrom_eq_map (start : Nat) (instructions : List Instruction) :
    offsetsFrom start instructions = (List.range instructions.length).map (start + offsetAt instructions ·) := by
  induction instructions generalizing start with
  | nil => rfl
  | cons instruction instructions ih =>
    rw [offsetsFrom, ih, List.length_cons, List.range_succ_eq_map, List.map_cons, List.map_map]
    simp [Function.comp_def, Nat.add_assoc]

/-- The offsets of the instructions, counted from the first one. -/
theorem offsetsFrom_zero (instructions : List Instruction) :
    offsetsFrom 0 instructions = (List.range instructions.length).map (offsetAt instructions) := by
  simp [offsetsFrom_eq_map]

/-- The offsets of the instructions, and the end of the code behind them. -/
def boundaries (instructions : List Instruction) : List Nat :=
  offsetsFrom 0 instructions ++ [codeSize instructions]

theorem boundaries_eq_map (instructions : List Instruction) :
    boundaries instructions = (List.range (instructions.length + 1)).map (offsetAt instructions) := by
  rw [boundaries, offsetsFrom_zero, List.range_succ, List.map_append, List.map_singleton, offsetAt_length]

/-- Offsets grow strictly, up to the end of the code. -/
theorem pairwise_boundaries (instructions : List Instruction) : (boundaries instructions).Pairwise (· < ·) := by
  rw [boundaries_eq_map, List.pairwise_map]
  apply List.pairwise_lt_range.imp_of_mem
  intro first last _ hlast h
  exact offsetAt_lt_offsetAt h (Nat.le_of_lt_succ (List.mem_range.mp hlast))

theorem getElem?_offsetsFrom (h : index < instructions.length) :
    (offsetsFrom 0 instructions)[index]? = some (offsetAt instructions index) := by
  simp [offsetsFrom_zero, h]

/-- In a growing list, a member is found at its own place. -/
theorem idxOf?_of_pairwise {offsets : List Nat} {offset : Nat} (hoffsets : offsets.Pairwise (· < ·))
    (h : offsets[index]? = some offset) : offsets.idxOf? offset = some index := by
  obtain ⟨hindex, rfl⟩ := List.getElem?_eq_some_iff.mp h
  rw [List.idxOf?_eq_some_iff]
  refine ⟨hindex, rfl, fun other hother => ?_⟩
  exact (List.pairwise_iff_getElem.mp hoffsets other index (by omega) hindex hother).ne

theorem idxOf?_boundaries (h : index ≤ instructions.length) :
    (boundaries instructions).idxOf? (offsetAt instructions index) = some index := by
  apply idxOf?_of_pairwise (pairwise_boundaries instructions)
  rw [boundaries_eq_map, List.getElem?_map, List.getElem?_range (by omega), Option.map_some]

theorem idxOf?_offsetsFrom (h : index < instructions.length) :
    (offsetsFrom 0 instructions).idxOf? (offsetAt instructions index) = some index :=
  idxOf?_of_pairwise (List.pairwise_append.mp (pairwise_boundaries instructions)).1 (getElem?_offsetsFrom h)

/-- The encoder reports where each instruction stands, and the end of the code. -/
theorem EncodedCode.offsetOf?_eq (h : encode instructions = .ok code) (hsize : code.size < codeLimit)
    (hindex : index ≤ instructions.length) : code.offsetOf? index = some (offsetAt instructions index) := by
  obtain ⟨hoffsets, hlength, -⟩ := encode_ok h
  have hcount : code.offsets.size = instructions.length := by simp [hoffsets]
  rw [EncodedCode.offsetOf?, hcount]
  split_ifs with hend hfits
  · rw [hend, offsetAt_length, ← hlength]
    rfl
  · exact absurd hsize hfits
  · rw [hoffsets, List.getElem?_toArray, getElem?_offsetsFrom (by omega)]

end HotPatch.Code
