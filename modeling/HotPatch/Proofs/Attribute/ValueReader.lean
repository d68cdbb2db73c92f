import HotPatch.Attribute.Encode
import HotPatch.Proofs.Bytes.CompressedReader
import HotPatch.Proofs.Parts

/-!
# Reading attribute values

A reader that follows the standard's grammar. The declared type of a named
argument stands in front of its value and is all that tells how the value is
read: the items of an array carry no tags of their own. The count of an array
says how many items follow; the standard reserves the greatest count for an
array that is absent, which no value here is.
-/

namespace HotPatch.Attribute

variable {bytes : Bytes} {declared element : ArgType} {arg : Argument} {items : List Argument} {reserved : Option Nat}

section Types

/-- A declared type of at most the given number of levels. -/
def readTypeWithin : Nat → Reader ArgType
  | 0 => throw .outOfBounds
  | levels + 1 => do
    let kind ← Reader.number 1
    match kind with
    | 0x02 => return .boolean
    | 0x08 => return .i4
    | 0x09 => return .u4
    | 0x0E => return .string
    | 0x50 => return .type
    | 0x1D => return .vector (← readTypeWithin levels)
    | _ => throw .outOfBounds

/-- A declared type, of whatever depth: every level takes a byte. -/
def readType : Reader ArgType := do readTypeWithin (← get).length

theorem reads_typeWithin (levels : Nat) (declared : ArgType) :
    Reads (readTypeWithin (levels + declared.encode.length)) declared.encode declared := by
  induction declared with
  | vector element ih => exact (Reads.byte (by decide)).bind (ih.map (Reads.pure _))
  | _ => exact (Reads.byte (by decide)).bind (Reads.pure _)

theorem reads_type (declared : ArgType) : Reads readType declared.encode declared := by
  apply Reads.look
  intro rest
  rw [List.length_append, Nat.add_comm]
  exact reads_typeWithin rest.length declared

end Types

namespace Argument

/-- The value has the declared type, at every level of arrays, whose counts fit 32 bits. -/
inductive Matches : ArgType → Argument → Prop
  | boolean (value : Bool) : Matches .boolean (.bool value)
  | i4 (value : Int32) : Matches .i4 (.i4 value)
  | u4 (value : UInt32) : Matches .u4 (.u4 value)
  | string (value : Option String) : Matches .string (.string value)
  | type (name : String) : Matches .type (.type name)
  | vector {element : ArgType} {items : List Argument} (count : items.length < 2 ^ 32)
    (each : ∀ item ∈ items, Matches element item) : Matches (.vector element) (.array items)

/-- What stands inside the value. -/
def children : Argument → List Argument
  | .array items => items
  | .bool _ | .i4 _ | .u4 _ | .string _ | .type _ => []

/-- The string at the root has a compressed count. -/
def ShortAt : Argument → Prop
  | .string value => ∀ text, value = some text → (Bytes.ofText text).length ≤ Bytes.compressedMax
  | .type name => (Bytes.ofText name).length ≤ Bytes.compressedMax
  | _ => True

/-- The array at the root has not the reserved number of items. -/
def UnreservedAt (reserved : Option Nat) : Argument → Prop
  | .array items => reserved ≠ some items.length
  | _ => True

/-- Without a reserved number, every array is free. -/
theorem unreservedAt_none (arg : Argument) : UnreservedAt none arg := by
  cases arg <;> simp [UnreservedAt]

/-- How many items of an array follow. A reserved count stands for an absent array. -/
def readCount (reserved : Option Nat) : Reader Nat := do
  let count ← Reader.number 4
  if reserved = some count then throw .outOfBounds else return count

/-- A value of the declared type. -/
def read (reserved : Option Nat) : ArgType → Reader Argument
  | .boolean => return .bool ((← Reader.number 1) != 0)
  | .i4 => return .i4 (UInt32.ofNat (← Reader.number 4)).toInt32
  | .u4 => return .u4 (UInt32.ofNat (← Reader.number 4))
  | .string => return .string (← Reader.countedText)
  | .type => return .type (← Reader.text)
  | .vector element => do
    let count ← readCount reserved
    return .array (← Reader.times count (read reserved element))

/-- The encodings of the items stand one behind the other. -/
theorem encodeAll_eq_mapM : encodeAll element items = return (← items.mapM (encode element)).flatten := by
  induction items with
  | nil => rfl
  | cons item items ih =>
    rw [encodeAll, List.mapM_cons, ih]
    simp only [bind_assoc, pure_bind, List.flatten_cons]

theorem exists_encodeAll : (∃ bytes, encodeAll element items = .ok bytes) ↔
    ∀ item ∈ items, ∃ bytes, encode element item = .ok bytes := by
  rw [← exists_mapM_eq_ok, encodeAll_eq_mapM]
  exact ⟨fun ⟨_, h⟩ => (bind_eq_ok.mp h).imp fun _ h => h.1,
    fun ⟨pieces, h⟩ => ⟨_, bind_eq_ok.mpr ⟨pieces, h, rfl⟩⟩⟩

theorem everywhere_array {p : Argument → Prop} : Everywhere children p (.array items) ↔
    p (.array items) ∧ ∀ item ∈ items, Everywhere children p item :=
  everywhere_iff

theorem everywhere_type {name : String} : Everywhere children ShortAt (.type name) ↔
    (Bytes.ofText name).length ≤ Bytes.compressedMax :=
  everywhere_of_leaf rfl

theorem exists_encode_vector : (∃ bytes, encode (.vector element) (.array items) = .ok bytes) ↔
    items.length < 2 ^ 32 ∧ ∀ item ∈ items, ∃ bytes, encode element item = .ok bytes := by
  rw [← exists_encodeAll, encode]
  split_ifs with hcount
  · exact ⟨fun ⟨_, h⟩ => ⟨hcount, (bind_eq_ok.mp h).imp fun _ h => h.1⟩,
      fun ⟨_, bytes, h⟩ => ⟨_, bind_eq_ok.mpr ⟨bytes, h, rfl⟩⟩⟩
  · exact iff_of_false (fun ⟨_, h⟩ => by cases h) fun h => hcount h.1

/-- Exactly the values of the declared type can be written. -/
theorem exists_encode_iff : (∃ bytes, encode declared arg = .ok bytes) ↔ Matches declared arg := by
  constructor
  · intro h
    induction declared generalizing arg with
    | vector element ih =>
      cases arg with
      | array items =>
        obtain ⟨hcount, hitems⟩ := exists_encode_vector.mp h
        exact .vector hcount fun item hi => ih (hitems item hi)
      | _ =>
        obtain ⟨bytes, h⟩ := h
        cases h
    | _ =>
      -- the one kind of value that is left is the one of the declared type
      obtain ⟨bytes, h⟩ := h
      cases arg <;> cases h
      constructor
  · intro h
    induction h with
    | vector hcount _ ih => exact exists_encode_vector.mpr ⟨hcount, ih⟩
    | _ => exact ⟨_, rfl⟩

theorem reads_count {count : Nat} (hcount : count < 2 ^ 32) (hfree : reserved ≠ some count) :
    Reads (readCount reserved) (Bytes.littleEndian 4 count) count := by
  apply (Reads.number hcount).map
  rw [if_neg hfree]
  exact Reads.pure count

/-- A value is read back by its declared type, unless one of its arrays has the reserved number of items. -/
theorem reads_encode (hshort : Everywhere children ShortAt arg)
    (hfree : Everywhere children (UnreservedAt reserved) arg) (h : encode declared arg = .ok bytes) :
    Reads (read reserved declared) bytes arg := by
  induction exists_encode_iff.mp ⟨bytes, h⟩ generalizing bytes with
  | boolean value =>
    cases h
    rw [← Bytes.littleEndian_one]
    exact Reads.number_as value.toUInt8.toNat_lt (by cases value <;> rfl)
  | i4 value =>
    cases h
    exact Reads.number_as value.toUInt32.toNat_lt (by simp)
  | u4 value =>
    cases h
    exact Reads.number_as value.toNat_lt (by simp)
  | string value =>
    cases h
    exact (Reads.countedText ((everywhere_of_leaf rfl).mp hshort)).map (Reads.pure _)
  | type name =>
    cases h
    exact (Reads.text (everywhere_type.mp hshort)).map (Reads.pure _)
  | @vector element items hcount each ih =>
    obtain ⟨-, hshort⟩ := everywhere_array.mp hshort
    obtain ⟨hroot, hfree⟩ := everywhere_array.mp hfree
    rw [encode, if_pos (show items.length < 0x100000000 from hcount), encodeAll_eq_mapM] at h
    obtain ⟨all, hall, h⟩ := bind_eq_ok.mp h
    obtain ⟨pieces, hpieces, hall⟩ := bind_eq_ok.mp hall
    cases hall
    cases h
    refine (reads_count hcount hroot).bind (Reads.map (Reads.times_mapM hpieces ?_) (Reads.pure _))
    intro item hi piece _ hpiece
    exact ih item hi (hshort item hi) (hfree item hi) hpiece

end Argument

namespace NamedArgument

variable {named : NamedArgument}

/-- The name and all strings in the value have compressed counts. -/
structure Short (named : NamedArgument) : Prop where
  name : (Bytes.ofText named.name).length ≤ Bytes.compressedMax
  value : Everywhere Argument.children Argument.ShortAt named.value

/-- A field or a property, its declared type, its name, and a value of that type. -/
def read (reserved : Option Nat) : Reader NamedArgument := do
  let kind ← Reader.number 1
  let argType ← readType
  let name ← Reader.text
  let value ← Argument.read reserved argType
  match kind with
  | 0x53 => return { isField := true, name, argType, value }
  | 0x54 => return { isField := false, name, argType, value }
  | _ => throw .outOfBounds

theorem exists_encode_iff : (∃ bytes, named.encode = .ok bytes) ↔ Argument.Matches named.argType named.value := by
  rw [← Argument.exists_encode_iff]
  exact ⟨fun ⟨_, h⟩ => (bind_eq_ok.mp h).imp fun _ h => h.1,
    fun ⟨bytes, h⟩ => ⟨_, bind_eq_ok.mpr ⟨bytes, h, rfl⟩⟩⟩

theorem reads_encode (hshort : named.Short)
    (hfree : Everywhere Argument.children (Argument.UnreservedAt reserved) named.value)
    (h : named.encode = .ok bytes) : Reads (read reserved) bytes named := by
  obtain ⟨value, hvalue, h⟩ := bind_eq_ok.mp h
  cases h
  have hkind : Reads (Reader.number 1) [if named.isField then 0x53 else 0x54]
      (if named.isField then 0x53 else 0x54) := by
    cases named.isField
    · exact Reads.number (by decide : 0x54 < 256)
    · exact Reads.number (by decide : 0x53 < 256)
  rw [List.append_assoc, List.cons_append]
  apply hkind.bind
  apply (reads_type named.argType).bind
  apply (Reads.text hshort.name).bind
  apply (Argument.reads_encode hshort.value hfree hvalue).map
  obtain ⟨isField, name, argType, value⟩ := named
  cases isField <;> exact Reads.pure _

end NamedArgument

namespace Value

variable {value : Value}

/-- The greatest count, which the standard reserves for an absent array. -/
def absentCount : Nat := 0xFFFFFFFF

/-- All strings of named arguments have compressed counts. -/
def Short (value : Value) : Prop := ∀ named ∈ value.named, named.Short

/-- No array has the reserved number of items. -/
def Unreserved (reserved : Option Nat) (value : Value) : Prop :=
  ∀ named ∈ value.named, Everywhere Argument.children (Argument.UnreservedAt reserved) named.value

/-- There are only named arguments, not too many of them, and each has a value of its declared type. -/
structure Proper (value : Value) : Prop where
  fixed : value.fixed = []
  count : value.named.length ≤ 65535
  each : ∀ named ∈ value.named, Argument.Matches named.argType named.value

/-- The mark in front, the number of named arguments, and these. -/
def read (reserved : Option Nat) : Reader Value := do
  Reader.tag 0x01
  Reader.tag 0x00
  let count ← Reader.number 2
  let named ← Reader.times count (NamedArgument.read reserved)
  return { named }

theorem exists_encode_iff : (∃ blob, value.encode = .ok blob) ↔ value.Proper := by
  have hall : (∃ pieces, value.named.mapM NamedArgument.encode = .ok pieces) ↔
      ∀ named ∈ value.named, Argument.Matches named.argType named.value :=
    exists_mapM_eq_ok.trans (forall₂_congr fun _ _ => NamedArgument.exists_encode_iff)
  unfold encode
  split_ifs with hfixed hcount
  · exact iff_of_false (fun ⟨_, h⟩ => by cases h) fun h => by simp [h.fixed] at hfixed
  · rw [Bool.not_eq_true, Bool.not_eq_eq_eq_not, Bool.not_false, List.isEmpty_iff] at hfixed
    constructor
    · rintro ⟨blob, h⟩
      obtain ⟨pieces, hpieces, -⟩ := bind_eq_ok.mp h
      exact ⟨hfixed, Nat.le_of_lt_succ hcount, hall.mp ⟨pieces, hpieces⟩⟩
    · intro h
      obtain ⟨pieces, hpieces⟩ := hall.mpr h.each
      exact ⟨_, bind_eq_ok.mpr ⟨pieces, hpieces, rfl⟩⟩
  · exact iff_of_false (fun ⟨_, h⟩ => by cases h) fun h => hcount (Nat.lt_succ_of_le h.count)

theorem reads_encode {blob : Bytes} (hshort : value.Short) (hfree : value.Unreserved reserved)
    (h : value.encode = .ok blob) : Reads (read reserved) blob value := by
  obtain ⟨hfixed, hcount, -⟩ := exists_encode_iff.mp ⟨blob, h⟩
  obtain ⟨fixed, named⟩ := value
  obtain rfl : fixed = [] := hfixed
  rw [encode, if_neg (by simp), if_pos (Nat.lt_succ_of_le hcount)] at h
  obtain ⟨pieces, hpieces, h⟩ := bind_eq_ok.mp h
  cases h
  rw [List.append_assoc]
  apply (Reads.tag (by decide : 0x01 < 256)).bind
  apply (Reads.tag (by decide : 0x00 < 256)).bind
  apply (Reads.number (Nat.lt_succ_of_le hcount)).bind
  refine Reads.map (Reads.times_mapM hpieces fun argument hm piece _ hpiece => ?_) (Reads.pure _)
  exact NamedArgument.reads_encode (hshort argument hm) (hfree argument hm) hpiece

end Value

end HotPatch.Attribute
