import HotPatch.Proofs.Attribute.ValueSegments
import HotPatch.Proofs.Image.UserStringReader
import HotPatch.Proofs.Signature.SignatureSegments

/-!
# Numbers that are written as another

Compressed numbers end at 2^29 - 1. The coded indices of tokens stay below that;
indices of parameters, counts and lengths may exceed it, and go out as if they
were the greatest. What was written then reads as something else or not at all,
and that happens to no other signature, attribute value or heap entry.
-/

namespace HotPatch

open Segment (Unclamped)

namespace Image

section Blobs

variable {heap next : BlobHeap} {blob : Bytes} {offset : Nat}

def blobSegments (blob : Bytes) : List Segment := [.number blob.length, .plain blob]

theorem write_blobSegments (blob : Bytes) : Segment.write (blobSegments blob) = blobEntry blob := by
  simp [blobSegments, blobEntry]

/-- A blob that is not there yet is written at the end. -/
theorem bytes_add_blob (h : BlobHeap.add heap blob = .ok (offset, next)) :
    next.bytes = heap.bytes ∨ next.bytes = heap.bytes ++ Segment.write (blobSegments blob) := by
  cases added_blob h with
  | empty | found => exact .inl rfl
  | written =>
    rw [write_blobSegments]
    exact .inr (heap.bytes_append _)

/-- What stands at the offset is read as the blob exactly if its length has a compressed form. -/
theorem blobAt?_add (hholds : heap.Holds blobEntry) (h : BlobHeap.add heap blob = .ok (offset, next)) :
    blobAt? next.bytes offset = some blob ↔ blob.length ≤ Bytes.compressedMax := by
  have hentered := (placed_blob hholds h).entered
  refine ⟨fun hread => ?_, fun hshort => blobAt?_of_entered (Nat.lt_succ_of_le hshort) hentered⟩
  simp only [blobAt?, Option.bind_eq_bind, Option.bind_eq_some_iff] at hread
  obtain ⟨tail, -, ⟨length, rest⟩, hlength, ⟨front, behind⟩, hfront, hread⟩ := hread
  cases hread
  rw [(Bytes.take?_eq_some.mp hfront).1]
  exact Bytes.le_of_uncompress? hlength

end Blobs

section UserStrings

variable {heap next : UserStringHeap} {value : String} {offset : Nat}

def userStringSegments (value : String) : List Segment :=
  [.number ((utf16 value).length + 1), .plain (utf16 value), .plain [userStringFlag value]]

theorem write_userStringSegments (value : String) :
    Segment.write (userStringSegments value) = userStringEntry value := by
  simp [userStringSegments, userStringEntry]

/-- The last entry is read as the string, with nothing behind it, exactly if its length has a compressed form. -/
theorem userString?_add (h : UserStringHeap.add heap value = .ok (offset, next)) :
    userString? (next.bytes.drop offset) = some (value, []) ↔ (utf16 value).length + 1 ≤ Bytes.compressedMax := by
  obtain ⟨rfl, hnext⟩ := UserStringHeap.add_eq_ok h
  rw [hnext, List.drop_left, ← List.append_nil (userStringEntry value)]
  refine ⟨fun hread => ?_, fun hshort => userString?_entry (Nat.lt_succ_of_le hshort) []⟩
  rw [userString?, userStringEntry, List.append_assoc, List.append_assoc, Bytes.uncompress?_min] at hread
  simp only [Option.bind_eq_bind, Option.bind_some, Option.bind_eq_some_iff] at hread
  obtain ⟨⟨front, behind⟩, hfront, text, -, hread⟩ := hread
  cases hread
  -- nothing is left behind the entry, so the length that was read is that of all of it
  obtain ⟨hlength, hall⟩ := Bytes.take?_eq_some.mp hfront
  rw [List.append_nil, List.append_nil] at hall
  rw [← hall, List.length_append, List.length_singleton] at hlength
  omega

end UserStrings
end Image

open Image

/-- Where an encoder or a heap answers, what it wrote is known, each number of it has a compressed form exactly
if the indices, counts and lengths of the value are small, and exactly then is the value read back. -/
theorem written_numbers_iff (type : TypeSig) (types : List TypeSig) (method : MethodSig) (value : Attribute.Value)
    (blobs : BlobHeap) (blob : Bytes) (strings : UserStringHeap) (text : String) :
    (Puts TypeSig.encode TypeSig.segments TypeSig.read TypeSig.Narrow type ∧
      Puts TypeSig.encodeField TypeSig.segmentsField TypeSig.readField TypeSig.Narrow type ∧
      Puts TypeSig.encodeLocals TypeSig.segmentsLocals TypeSig.readLocals TypeSig.AllNarrow types ∧
      Puts TypeSig.encodeMethodInstantiation TypeSig.segmentsMethodInstantiation TypeSig.readMethodInstantiation
        TypeSig.AllNarrow types ∧
      Puts MethodSig.encode MethodSig.segments MethodSig.read MethodSig.Narrow method) ∧
    Puts Attribute.Value.encode Attribute.Value.segments (Attribute.Value.read none) Attribute.Value.Short value ∧
    (∀ offset next, BlobHeap.add blobs blob = .ok (offset, next) →
      (next.bytes = blobs.bytes ∨ next.bytes = blobs.bytes ++ Segment.write (blobSegments blob)) ∧
        (Unclamped (blobSegments blob) ↔ blob.length ≤ Bytes.compressedMax) ∧
        (blobs.Holds blobEntry →
          (blobAt? next.bytes offset = some blob ↔ blob.length ≤ Bytes.compressedMax))) ∧
    ∀ offset next, UserStringHeap.add strings text = .ok (offset, next) →
      next.bytes = strings.bytes ++ Segment.write (userStringSegments text) ∧
        (Unclamped (userStringSegments text) ↔ (utf16 text).length + 1 ≤ Bytes.compressedMax) ∧
        (userString? (next.bytes.drop offset) = some (text, []) ↔
          (utf16 text).length + 1 ≤ Bytes.compressedMax) := by
  refine ⟨⟨type.encode_puts, type.encodeField_puts, TypeSig.encodeLocals_puts types,
    TypeSig.encodeMethodInstantiation_puts types, method.encode_puts⟩, value.encode_puts, ?_, ?_⟩
  · intro offset next h
    exact ⟨bytes_add_blob h, by simp [blobSegments], fun hholds => blobAt?_add hholds h⟩
  · intro offset next h
    refine ⟨?_, by simp [userStringSegments], userString?_add h⟩
    rw [write_userStringSegments]
    exact (UserStringHeap.add_eq_ok h).2

/-- The index of a parameter just above the bound: its blob is the one of the parameter at the bound. -/
theorem encode_clamps_methodParam : ∃ written blob, (TypeSig.methodParam 0x20000000).segments = .ok written ∧
    (TypeSig.methodParam 0x20000000).encode = .ok blob ∧ ¬Unclamped written ∧
    (TypeSig.methodParam 0x1FFFFFFF).encode = .ok blob :=
  ⟨_, _, rfl, rfl, by simp [Bytes.compressedMax], rfl⟩

/-- The parameter above the bound does not come back from its blob; a short blob comes back from its heap. -/
theorem written_numbers_iff_wideIndex : (∃ blob, (TypeSig.methodParam 0x20000000).encode = .ok blob ∧
    ¬Reads TypeSig.read blob (.methodParam 0x20000000)) ∧
    ∃ offset next, BlobHeap.add {} [0x1E, 0x00] = .ok (offset, next) ∧
      blobAt? next.bytes offset = some [0x1E, 0x00] := by
  obtain ⟨⟨htype, -⟩, -, hblob, -⟩ :=
    written_numbers_iff (.methodParam 0x20000000) [] {} {} {} [0x1E, 0x00] {} ""
  refine ⟨⟨_, rfl, ?_⟩, _, _, rfl, ?_⟩
  · rw [htype.reads_iff _ rfl, TypeSig.narrow_methodParam]
    decide
  · obtain ⟨-, -, hfound⟩ := hblob _ _ rfl
    exact (hfound Heap.holds_empty).mpr (by decide)

end HotPatch
