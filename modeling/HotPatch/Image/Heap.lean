import HotPatch.Bytes.Compressed
import HotPatch.Error

/-!
# Heaps

A heap is one run of bytes that opens with a zero byte; rows refer to entries
by offset. Strings end in a zero byte and blobs stand behind their compressed
length; in both heaps equal values share an entry and the empty value is the
zero byte in front. User strings are never shared: each is a compressed length,
the UTF-16 units, and a byte that tells whether a character is outside ASCII.
A finished heap is filled up to a multiple of four with bytes 0xFF.
-/

namespace HotPatch.Image

/-- The entries, the last one first, with the number of their bytes. -/
structure Heap (α : Type) where
  entries : List Bytes := [[0]]
  size : Nat := 1
  offsets : List (α × Nat) := []
  size_eq : size = entries.flatten.length := by rfl
  deriving Repr

/-- Offsets and lengths are 32 bits wide. -/
def sizeLimit : Nat := 0x100000000

def checkHeapSize (size : Nat) : Result Unit :=
  if size < sizeLimit then .ok () else malformed (.heapSize size)

namespace Heap

variable {α : Type}

def bytes (heap : Heap α) : Bytes := heap.entries.reverse.flatten

theorem length_bytes (heap : Heap α) : heap.bytes.length = heap.size := by
  simp [bytes, heap.size_eq, List.length_flatten]

/-- Whether nothing has been written behind the zero byte. -/
def isEmpty (heap : Heap α) : Bool := heap.size ≤ 1

def finish (heap : Heap α) : Bytes := Bytes.padToFour 0xFF heap.bytes

/-- Writes an entry at the end and answers where it starts. -/
def append (heap : Heap α) (entry : Bytes) : Nat × Heap α :=
  (heap.size, { heap with
    entries := entry :: heap.entries
    size := heap.size + entry.length
    size_eq := by simp [heap.size_eq, Nat.add_comm] })

theorem bytes_append (heap : Heap α) (entry : Bytes) :
    (heap.append entry).2.bytes = heap.bytes ++ entry := by
  simp [append, bytes]

/-- Answers the entry of an equal value, or writes a new one. -/
def share [BEq α] (heap : Heap α) (value : α) (entry : Result Bytes) : Result (Nat × Heap α) :=
  match heap.offsets.lookup value with
  | some offset => .ok (offset, heap)
  | none => do
    checkHeapSize heap.size
    let (offset, next) := heap.append (← entry)
    return (offset, { next with offsets := (value, offset) :: heap.offsets })

/-- Adds values one after another. Answers for each its offset and the size of the heap then. -/
def addEach {β : Type} (add : Heap α → β → Result (Nat × Heap α)) :
    List β → Heap α → Result (List (Nat × Nat) × Heap α)
  | [], heap => .ok ([], heap)
  | value :: values, heap => do
    let (offset, next) ← add heap value
    let (entries, last) ← addEach add values next
    return ((offset, next.size) :: entries, last)

end Heap

abbrev StringHeap := Heap String
abbrev BlobHeap := Heap Bytes
abbrev UserStringHeap := Heap Empty

def StringHeap.add (heap : StringHeap) (value : String) : Result (Nat × StringHeap) :=
  if value = "" then .ok (0, heap) else heap.share value (.ok (Bytes.ofText value ++ [0]))

def BlobHeap.add (heap : BlobHeap) (blob : Bytes) : Result (Nat × BlobHeap) :=
  if blob.isEmpty then .ok (0, heap)
  else heap.share blob do
    checkHeapSize blob.length
    return Bytes.compressed blob.length ++ blob

/-- The one or two units of a character. -/
def utf16Units (c : Char) : List Nat :=
  if c.toNat < 0x10000 then [c.toNat]
  else [0xD800 + (c.toNat - 0x10000) / 0x400, 0xDC00 + (c.toNat - 0x10000) % 0x400]

def utf16 (text : String) : Bytes := (text.toList.flatMap utf16Units).flatMap (Bytes.littleEndian 2)

def UserStringHeap.add (heap : UserStringHeap) (value : String) : Result (Nat × UserStringHeap) := do
  checkHeapSize heap.size
  let units := utf16 value
  checkHeapSize (units.length + 1)
  let flag : UInt8 := if value.toList.any (0x80 ≤ ·.toNat) then 1 else 0
  return heap.append (Bytes.compressed (units.length + 1) ++ units ++ [flag])

def StringHeap.addAll : List String → StringHeap → Result (List (Nat × Nat) × StringHeap) :=
  Heap.addEach StringHeap.add

def BlobHeap.addAll : List Bytes → BlobHeap → Result (List (Nat × Nat) × BlobHeap) :=
  Heap.addEach BlobHeap.add

def UserStringHeap.addAll :
    List String → UserStringHeap → Result (List (Nat × Nat) × UserStringHeap) :=
  Heap.addEach UserStringHeap.add

end HotPatch.Image
