import HotPatch.Image.Header
import HotPatch.Image.Heap
import HotPatch.Proofs.Bytes.CompressedForms

/-!
# What heaps hold

The entry of a value stands in the heap at the offset that was answered, and
stays there as the heap grows. So whatever comes behind it, a string without a
zero is read up to the zero behind it, and a blob is read by its length.
-/

namespace HotPatch

section Text

/-- In UTF-8, a zero byte stands for the zero character only. -/
theorem Bytes.zero_notMem_ofText {text : String} (h : '\x00' ∉ text.toList) : (0 : UInt8) ∉ ofText text := by
  have hbytes : ofText text = text.toList.flatMap String.utf8EncodeChar := by
    rw [ofText, String.toUTF8, ← String.utf8Encode_toList, List.utf8Encode]
    simp
  rw [hbytes, List.mem_flatMap]
  rintro ⟨c, hc, hzero⟩
  have hne : c.val.toNat ≠ 0 := by
    intro hn
    have hnull : c = '\x00' := Char.ext (UInt32.toNat_inj.mp hn)
    exact h (hnull ▸ hc)
  have hbyte : ∀ n : Nat, 0 = UInt8.ofNat n → n % 256 = 0 := fun n hn => by
    simpa using (congrArg UInt8.toNat hn).symm
  unfold String.utf8EncodeChar at hzero
  dsimp only at hzero
  split_ifs at hzero <;> simp only [List.mem_cons, List.not_mem_nil, or_false] at hzero
  · have hn := hbyte _ hzero
    omega
  · rcases hzero with hzero | hzero <;> have hn := hbyte _ hzero <;> omega
  · rcases hzero with hzero | hzero | hzero <;> have hn := hbyte _ hzero <;> omega
  · rcases hzero with hzero | hzero | hzero | hzero <;> have hn := hbyte _ hzero <;> omega

end Text

namespace Image

/-- A string stands in its heap with a zero behind it. -/
def stringEntry (text : String) : Bytes := Bytes.ofText text ++ [0]

/-- A blob stands in its heap behind its length. -/
def blobEntry (blob : Bytes) : Bytes := Bytes.compressed blob.length ++ blob

section Adding

variable {α : Type} [BEq α] {entry : α → Bytes} {empty value : α} {heap next : Heap α} {offset : Nat}

/-- How adding a value ends: the empty one is the zero byte in front, one that is known is there already, and any
other is written at the end and known from then on. -/
inductive Heap.Added (entry : α → Bytes) (empty : α) (heap : Heap α) (value : α) : Nat → Heap α → Prop where
  | empty (he : value = empty) : Added entry empty heap value 0 heap
  | found {offset : Nat} (hne : value ≠ empty) (known : heap.offsets.lookup value = some offset) :
    Added entry empty heap value offset heap
  | written (hne : value ≠ empty) (unknown : heap.offsets.lookup value = none) (room : heap.size < sizeLimit) :
    Added entry empty heap value heap.size
      { (heap.append (entry value)).2 with offsets := (value, heap.size) :: heap.offsets }

theorem Heap.added_of_share {result : Result Bytes} (hne : value ≠ empty)
    (hentry : ∀ bytes, result = .ok bytes → bytes = entry value)
    (h : heap.share value result = .ok (offset, next)) : heap.Added entry empty value offset next := by
  unfold Heap.share at h
  rcases hl : heap.offsets.lookup value with - | found <;> rw [hl] at h
  · obtain ⟨⟨⟩, hsize, h⟩ := bind_eq_ok.mp h
    obtain ⟨bytes, hbytes, h⟩ := bind_eq_ok.mp h
    obtain rfl := hentry bytes hbytes
    unfold checkHeapSize at hsize
    split_ifs at hsize with hroom
    · cases h
      exact .written hne hl hroom
    · cases hsize
  · cases h
    exact .found hne hl

theorem added_string {strings next : StringHeap} {text : String} (h : StringHeap.add strings text = .ok (offset, next)) :
    strings.Added stringEntry "" text offset next := by
  unfold StringHeap.add at h
  split_ifs at h with he
  · cases h
    exact .empty he
  · exact Heap.added_of_share he (fun _ hb => (Except.ok.inj hb).symm) h

theorem added_blob {blobs next : BlobHeap} {blob : Bytes} (h : BlobHeap.add blobs blob = .ok (offset, next)) :
    blobs.Added blobEntry [] blob offset next := by
  unfold BlobHeap.add at h
  split_ifs at h with he
  · cases h
    exact .empty (List.isEmpty_iff.mp he)
  · refine Heap.added_of_share (mt List.isEmpty_iff.mpr he) (fun bytes hb => ?_) h
    obtain ⟨⟨⟩, -, hb⟩ := bind_eq_ok.mp hb
    exact (Except.ok.inj hb).symm

end Adding

section Holding

variable {α : Type} {entry : α → Bytes} {heap next : Heap α} {value : α} {offset : Nat}

/-- The heap opens with a zero and holds the entries of its values at their offsets. -/
structure Heap.Holds (entry : α → Bytes) [BEq α] (heap : Heap α) : Prop where
  opens : [0] <+: heap.bytes
  found : ∀ value offset, heap.offsets.lookup value = some offset →
    offset < sizeLimit ∧ entry value <+: heap.bytes.drop offset

/-- The heap has grown, and holds the entry of the value at the offset. -/
structure Heap.Placed (entry : α → Bytes) [BEq α] (heap : Heap α) (value : α) (offset : Nat) (next : Heap α) :
    Prop where
  holds : next.Holds entry
  grows : heap.bytes <+: next.bytes
  offset_lt : offset < sizeLimit
  entered : entry value <+: next.bytes.drop offset

variable [BEq α] [LawfulBEq α]

omit [LawfulBEq α] in
theorem Heap.holds_empty : ({} : Heap α).Holds entry := ⟨List.prefix_refl _, fun _ _ h => by cases h⟩

theorem Heap.Holds.added {empty : α} (h : heap.Holds entry) (hempty : entry empty = [0])
    (ha : heap.Added entry empty value offset next) : heap.Placed entry value offset next := by
  cases ha with
  | empty he =>
    refine ⟨h, List.prefix_refl _, by decide, ?_⟩
    rw [he, hempty]
    exact h.opens
  | found _ known =>
    obtain ⟨hlt, hentered⟩ := h.found value _ known
    exact ⟨h, List.prefix_refl _, hlt, hentered⟩
  | written _ _ room =>
    have hbytes := heap.bytes_append (entry value)
    have hgrows : heap.bytes <+: (heap.append (entry value)).2.bytes := hbytes ▸ List.prefix_append _ _
    have hentered : entry value <+: (heap.append (entry value)).2.bytes.drop heap.size := by
      rw [hbytes, ← heap.length_bytes, List.drop_left]
    refine ⟨⟨h.opens.trans hgrows, fun other place ho => ?_⟩, hgrows, room, hentered⟩
    dsimp only at ho
    rw [List.lookup_cons] at ho
    split at ho
    · rename_i heq
      obtain rfl := eq_of_beq heq
      cases ho
      exact ⟨room, hentered⟩
    · obtain ⟨hplace, hother⟩ := h.found other place ho
      exact ⟨hplace, hother.trans (hgrows.drop place)⟩

theorem placed_string {strings next : StringHeap} {text : String} (h : strings.Holds stringEntry)
    (ha : StringHeap.add strings text = .ok (offset, next)) : strings.Placed stringEntry text offset next :=
  h.added rfl (added_string ha)

theorem placed_blob {blobs next : BlobHeap} {blob : Bytes} (h : blobs.Holds blobEntry)
    (ha : BlobHeap.add blobs blob = .ok (offset, next)) : blobs.Placed blobEntry blob offset next :=
  h.added rfl (added_blob ha)

end Holding

section Finding

variable {heap : Bytes} {offset : Nat}

/-- The blob at an offset of a heap, behind its length. -/
def blobAt? (blobs : Bytes) (offset : Nat) : Option Bytes := do
  let tail ← blobs.slice? offset blobs.length
  let (length, rest) ← Bytes.uncompress? tail
  let (blob, _) ← rest.take? length
  return blob

theorem slice?_to_end (h : offset ≤ heap.length) : heap.slice? offset heap.length = some (heap.drop offset) := by
  rw [Bytes.slice?, if_pos ⟨h, Nat.le_refl _⟩]
  exact congrArg some (List.take_of_length_le (List.length_drop ▸ Nat.le_refl _))

/-- Something is left behind an offset at which an entry stands. -/
theorem exists_of_entered {entry : Bytes} (h : entry <+: heap.drop offset) (hne : entry ≠ []) :
    ∃ rest, heap.slice? offset heap.length = some (entry ++ rest) := by
  obtain ⟨rest, hr⟩ := h
  refine ⟨rest, ?_⟩
  have hlength := congrArg List.length hr
  rw [List.length_append, List.length_drop] at hlength
  have hpos := List.length_pos_iff.mpr hne
  rw [slice?_to_end (by omega), hr]

theorem textAt_of_entered {text : String} (hzero : '\x00' ∉ text.toList)
    (h : stringEntry text <+: heap.drop offset) : Header.textAt heap offset = .ok text := by
  obtain ⟨rest, hr⟩ := exists_of_entered h (by simp [stringEntry])
  have hnot := Bytes.zero_notMem_ofText hzero
  have hfront : (stringEntry text ++ rest).takeWhile (· != 0) = Bytes.ofText text := by
    rw [stringEntry, List.append_assoc, List.takeWhile_append_of_pos fun byte hb => ?_]
    · simp
    · have hne : byte ≠ 0 := fun he => hnot (he ▸ hb)
      simpa using hne
  have hcontains : (stringEntry text ++ rest).contains 0 := by simp [stringEntry]
  rw [Header.textAt, hr]
  dsimp only
  rw [if_pos hcontains, hfront, Bytes.toText?_ofText]

theorem blobAt?_of_entered {blob : Bytes} (hshort : blob.length < 2 ^ 29) (h : blobEntry blob <+: heap.drop offset) :
    blobAt? heap offset = some blob := by
  have hne : blobEntry blob ≠ [] := by
    intro he
    have hread := Bytes.uncompress?_compressed (Nat.le_pred_of_lt hshort) []
    rw [(List.append_eq_nil_iff.mp he).1] at hread
    cases hread
  obtain ⟨rest, hr⟩ := exists_of_entered h hne
  unfold blobAt?
  rw [hr, Option.bind_eq_bind, Option.bind_some, blobEntry, List.append_assoc,
    Bytes.uncompress?_compressed (Nat.le_pred_of_lt hshort)]
  dsimp only [Option.bind_eq_bind, Option.bind_some]
  rw [Bytes.take?_append]
  rfl

end Finding
end Image
end HotPatch
