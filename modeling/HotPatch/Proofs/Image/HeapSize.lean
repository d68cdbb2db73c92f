import HotPatch.Proofs.Body.Encoding
import HotPatch.Proofs.Image.HeapContents
import Mathlib.Algebra.Order.BigOperators.Group.Finset

/-!
# Sizes of heaps

A heap takes one byte and what the different values in it take. Adding a value
succeeds as long as the heap with that value is below the limit, and then the
heap holds that value as well.
-/

namespace HotPatch.Image

/-- The bytes that a string takes. -/
def stringWeight (value : String) : Nat := (Bytes.ofText value).length + 1

/-- The bytes that a blob takes. -/
def blobWeight (blob : Bytes) : Nat := (Bytes.compressed blob.length).length + blob.length

/-- The bytes that a user string takes. -/
def userStringWeight (value : String) : Nat :=
  (Bytes.compressed ((utf16 value).length + 1)).length + (utf16 value).length + 1

section Keys

variable {α : Type} (weight : α → Nat) {value : α} {values more : Finset α}

/-- The size of a heap with the given values. -/
def heapSize (weight : α → Nat) (values : Finset α) : Nat := 1 + ∑ value ∈ values, weight value

theorem heapSize_mono (h : values ⊆ more) : heapSize weight values ≤ heapSize weight more :=
  Nat.add_le_add_left (Finset.sum_le_sum_of_subset h) 1

theorem weight_lt_heapSize (h : value ∈ values) : weight value < heapSize weight values := by
  have hle := Finset.single_le_sum (f := weight) (fun _ _ => Nat.zero_le _) h
  rw [heapSize]
  omega

variable {weight} [DecidableEq α]

theorem heapSize_insert_of_notMem (h : value ∉ values) :
    heapSize weight (insert value values) = heapSize weight values + weight value := by
  rw [heapSize, heapSize, Finset.sum_insert h]
  omega

/-- The values of a list that are not empty, and so take an entry. -/
def filled (empty : α) (entries : List α) : Finset α := entries.toFinset.erase empty

theorem union_filled_empty (empty : α) : values ∪ filled empty [empty] = values := by
  simp [filled]

theorem union_filled_singleton {empty : α} (h : value ≠ empty) :
    values ∪ filled empty [value] = insert value values := by
  ext other
  simp only [filled, List.toFinset_cons, List.toFinset_nil, insert_empty_eq, Finset.mem_union, Finset.mem_erase,
    Finset.mem_singleton, Finset.mem_insert]
  constructor
  · rintro (ho | ⟨-, rfl⟩)
    · exact .inr ho
    · exact .inl rfl
  · rintro (rfl | ho)
    · exact .inr ⟨h, rfl⟩
    · exact .inl ho

theorem filled_append (empty : α) (first second : List α) :
    filled empty (first ++ second) = filled empty first ∪ filled empty second := by
  rw [filled, List.toFinset_append, Finset.erase_union_distrib]
  rfl

namespace Heap

variable {heap next : Heap α} {entry : Result Bytes}

/-- The values that have an entry. -/
def keys (heap : Heap α) : Finset α := (heap.offsets.map Prod.fst).toFinset

theorem mem_keys [BEq α] [LawfulBEq α] : value ∈ heap.keys ↔ (heap.offsets.lookup value).isSome := by
  simp [keys, List.lookup_isSome_iff]

/-- The heap has the size that its values call for. -/
def Sized (weight : α → Nat) (heap : Heap α) : Prop := heap.size = heapSize weight heap.keys

theorem sized_empty : ({} : Heap α).Sized weight := rfl

variable [BEq α]

/-- Adding a value leads to a heap with that value. -/
theorem Added.sized [LawfulBEq α] {bytes : α → Bytes} {empty : α} {offset : Nat}
    (ha : heap.Added bytes empty value offset next) (hs : heap.Sized weight)
    (hbytes : (bytes value).length = weight value) :
    next.Sized weight ∧ next.keys = heap.keys ∪ filled empty [value] := by
  cases ha with
  | empty he => exact ⟨hs, by rw [he, union_filled_empty]⟩
  | found hne known =>
    rw [union_filled_singleton hne]
    exact ⟨hs, (Finset.insert_eq_of_mem (mem_keys.mpr (by simp [known]))).symm⟩
  | written hne unknown =>
    rw [union_filled_singleton hne]
    have hnot : value ∉ heap.keys := by
      rw [mem_keys, unknown]
      simp
    have hkeys : keys { (heap.append (bytes value)).2 with offsets := (value, heap.size) :: heap.offsets } =
        insert value heap.keys := by
      simp [keys]
    refine ⟨?_, hkeys⟩
    rw [Sized, hkeys, heapSize_insert_of_notMem hnot, ← hs, ← hbytes]
    rfl

/-- Sharing succeeds if there is room for the value. -/
theorem exists_share {bytes : Bytes} (hs : heap.Sized weight) (hentry : entry = .ok bytes)
    (hlimit : heapSize weight (insert value heap.keys) < sizeLimit) :
    ∃ offset next, heap.share value entry = .ok (offset, next) := by
  unfold share
  rcases heap.offsets.lookup value with - | found
  · have hle := heapSize_mono weight (Finset.subset_insert value heap.keys)
    have hsize : checkHeapSize heap.size = .ok () := if_pos (by rw [hs]; omega)
    exact ⟨_, _, bind_eq_ok.mpr ⟨(), hsize, bind_eq_ok.mpr ⟨bytes, hentry, rfl⟩⟩⟩
  · exact ⟨_, _, rfl⟩

end Heap
end Keys

theorem length_finish {α : Type} (heap : Heap α) : heap.finish.length = Bytes.alignFour heap.size := by
  rw [Heap.finish, length_padToFour, Heap.length_bytes]

section Add

variable {strings strings' : StringHeap} {blobs blobs' : BlobHeap} {offset : Nat}

theorem add_string_ok {value : String} (hs : strings.Sized stringWeight)
    (h : StringHeap.add strings value = .ok (offset, strings')) :
    strings'.Sized stringWeight ∧ strings'.keys = strings.keys ∪ filled "" [value] :=
  (added_string h).sized hs (by simp [stringEntry, stringWeight])

theorem exists_add_string {value : String} (hs : strings.Sized stringWeight)
    (hlimit : heapSize stringWeight (strings.keys ∪ filled "" [value]) < sizeLimit) :
    ∃ offset strings', StringHeap.add strings value = .ok (offset, strings') := by
  unfold StringHeap.add
  split_ifs with he
  · exact ⟨_, _, rfl⟩
  · rw [union_filled_singleton he] at hlimit
    exact Heap.exists_share hs rfl hlimit

theorem add_blob_ok {blob : Bytes} (hs : blobs.Sized blobWeight)
    (h : BlobHeap.add blobs blob = .ok (offset, blobs')) :
    blobs'.Sized blobWeight ∧ blobs'.keys = blobs.keys ∪ filled [] [blob] :=
  (added_blob h).sized hs (by simp [blobEntry, blobWeight])

theorem exists_add_blob {blob : Bytes} (hs : blobs.Sized blobWeight)
    (hlimit : heapSize blobWeight (blobs.keys ∪ filled [] [blob]) < sizeLimit) :
    ∃ offset blobs', BlobHeap.add blobs blob = .ok (offset, blobs') := by
  unfold BlobHeap.add
  split_ifs with he
  · exact ⟨_, _, rfl⟩
  · rw [union_filled_singleton (mt List.isEmpty_iff.mpr he)] at hlimit
    have hweight := weight_lt_heapSize blobWeight (Finset.mem_insert_self blob blobs.keys)
    have hle : blob.length ≤ blobWeight blob := Nat.le_add_left _ _
    have hlength : checkHeapSize blob.length = .ok () := if_pos (by omega)
    exact Heap.exists_share hs (bind_eq_ok.mpr ⟨(), hlength, rfl⟩) hlimit

end Add

section UserStrings

variable {heap heap' : UserStringHeap} {values : List String}

/-- User strings are written one after another. -/
theorem addAll_userStrings_ok
    (h : values.foldlM (fun heap value => return (← UserStringHeap.add heap value).2) heap =
      (.ok heap' : Result UserStringHeap)) : heap'.size = heap.size + (values.map userStringWeight).sum := by
  induction values generalizing heap with
  | nil =>
    cases h
    rfl
  | cons value values ih =>
    rw [List.foldlM_cons] at h
    obtain ⟨first, hf, h⟩ := bind_eq_ok.mp h
    obtain ⟨added, ha, hf⟩ := bind_eq_ok.mp hf
    cases hf
    obtain ⟨⟨⟩, -, ha⟩ := bind_eq_ok.mp ha
    obtain ⟨⟨⟩, -, ha⟩ := bind_eq_ok.mp ha
    cases ha
    rw [ih h, List.map_cons, List.sum_cons, ← Nat.add_assoc]
    simp [Heap.append, userStringWeight, Nat.add_assoc]

theorem exists_addAll_userStrings
    (hlimit : heap.size + (values.map userStringWeight).sum < sizeLimit) :
    ∃ heap', values.foldlM (fun heap value => return (← UserStringHeap.add heap value).2) heap =
      (.ok heap' : Result UserStringHeap) := by
  induction values generalizing heap with
  | nil => exact ⟨heap, rfl⟩
  | cons value values ih =>
    rw [List.map_cons, List.sum_cons] at hlimit
    have hadd : ∃ offset next, UserStringHeap.add heap value = .ok (offset, next) := by
      have hweight : userStringWeight value =
        (Bytes.compressed ((utf16 value).length + 1)).length + (utf16 value).length + 1 := rfl
      have hsize : checkHeapSize heap.size = .ok () := if_pos (by omega)
      have hlength : checkHeapSize ((utf16 value).length + 1) = .ok () := if_pos (by omega)
      exact ⟨_, _, bind_eq_ok.mpr ⟨(), hsize, bind_eq_ok.mpr ⟨(), hlength, rfl⟩⟩⟩
    obtain ⟨offset, next, hadd⟩ := hadd
    have hfirst : (do return (← UserStringHeap.add heap value).2 : Result UserStringHeap) = .ok next :=
      bind_eq_ok.mpr ⟨_, hadd, rfl⟩
    have hone : [value].foldlM (fun heap value => return (← UserStringHeap.add heap value).2) heap =
        (.ok next : Result UserStringHeap) := by
      rw [List.foldlM_cons, hfirst]
      rfl
    have hnext := addAll_userStrings_ok hone
    rw [List.map_singleton, List.sum_singleton] at hnext
    have hrest : next.size + (values.map userStringWeight).sum < sizeLimit := by omega
    obtain ⟨last, hl⟩ := ih hrest
    exact ⟨last, by rw [List.foldlM_cons]; exact bind_eq_ok.mpr ⟨next, hfirst, hl⟩⟩

end UserStrings
end HotPatch.Image
