import HotPatch.Proofs.Image.HeapContents

/-!
# Reading user strings

User strings have no offsets in the tables; they are found one behind the other
from the second byte of their heap on. Each is as many bytes as its length says,
units of UTF-16 with a flag behind them. The bytes that fill the heap up start
no length, so they end the walk.
-/

namespace HotPatch.Image

section Units

/-- The numbers that pairs of bytes stand for. -/
def unitsOf? : Bytes → Option (List Nat)
  | [] => some []
  | [_] => none
  | low :: high :: rest => (unitsOf? rest).map (Bytes.ofLittleEndian [low, high] :: ·)

/-- The characters of units. A unit that opens a pair needs the one that closes it. -/
def charsOf? : List Nat → Option (List Char)
  | [] => some []
  | unit :: rest =>
    if unit < 0xD800 ∨ 0xE000 ≤ unit then (charsOf? rest).map (Char.ofNat unit :: ·)
    else if unit < 0xDC00 then
      match rest with
      | closing :: rest =>
        if 0xDC00 ≤ closing ∧ closing < 0xE000 then
          (charsOf? rest).map (Char.ofNat (0x10000 + (unit - 0xD800) * 0x400 + (closing - 0xDC00)) :: ·)
        else none
      | [] => none
    else none

/-- The text that bytes spell in UTF-16, if they spell one. -/
def utf16Text? (bytes : Bytes) : Option String := do
  let chars ← charsOf? (← unitsOf? bytes)
  return String.ofList chars

theorem unitsOf?_append {unit : Nat} (h : unit < 2 ^ 16) (rest : Bytes) :
    unitsOf? (Bytes.littleEndian 2 unit ++ rest) = (unitsOf? rest).map (unit :: ·) := by
  have hpair := Bytes.ofLittleEndian_littleEndian 2 unit
  rw [Nat.mod_eq_of_lt (show unit < 256 ^ 2 from h)] at hpair
  change (unitsOf? rest).map (Bytes.ofLittleEndian (Bytes.littleEndian 2 unit) :: ·) = _
  rw [hpair]

theorem unitsOf?_flatMap {units : List Nat} (h : ∀ unit ∈ units, unit < 2 ^ 16) :
    unitsOf? (units.flatMap (Bytes.littleEndian 2)) = some units := by
  induction units with
  | nil => rfl
  | cons unit units ih =>
    rw [List.forall_mem_cons] at h
    rw [List.flatMap_cons, unitsOf?_append h.1, ih h.2, Option.map_some]

/-- Characters have numbers below the pairs' units, or above them. -/
theorem toNat_cases (c : Char) : c.toNat < 0xD800 ∨ 0xDFFF < c.toNat ∧ c.toNat < 0x110000 := c.valid

theorem utf16Units_lt {c : Char} {unit : Nat} (h : unit ∈ utf16Units c) : unit < 2 ^ 16 := by
  have hc := toNat_cases c
  unfold utf16Units at h
  split_ifs at h with hsmall
  · rw [List.mem_singleton.mp h]
    omega
  · simp only [List.mem_cons, List.not_mem_nil, or_false] at h
    omega

theorem charsOf?_append (c : Char) (rest : List Nat) :
    charsOf? (utf16Units c ++ rest) = (charsOf? rest).map (c :: ·) := by
  have hc := toNat_cases c
  unfold utf16Units
  split_ifs with hsmall
  · rw [List.singleton_append, charsOf?.eq_def]
    dsimp only
    rw [if_pos (by omega), Char.ofNat_toNat]
  · have hpair : 0x10000 + (0xD800 + (c.toNat - 0x10000) / 0x400 - 0xD800) * 0x400 +
        (0xDC00 + (c.toNat - 0x10000) % 0x400 - 0xDC00) = c.toNat := by omega
    rw [List.cons_append, List.singleton_append, charsOf?.eq_def]
    dsimp only
    rw [if_neg (by omega), if_pos (by omega), if_pos (by omega), hpair, Char.ofNat_toNat]

theorem charsOf?_flatMap (chars : List Char) : charsOf? (chars.flatMap utf16Units) = some chars := by
  induction chars with
  | nil => rfl
  | cons c chars ih => rw [List.flatMap_cons, charsOf?_append, ih, Option.map_some]

theorem utf16Text?_utf16 (text : String) : utf16Text? (utf16 text) = some text := by
  have hunits : ∀ unit ∈ text.toList.flatMap utf16Units, unit < 2 ^ 16 := by
    intro unit hu
    obtain ⟨c, -, hc⟩ := List.mem_flatMap.mp hu
    exact utf16Units_lt hc
  rw [utf16Text?, utf16, unitsOf?_flatMap hunits]
  change (charsOf? (text.toList.flatMap utf16Units)).bind (fun chars => some (String.ofList chars)) = some text
  rw [charsOf?_flatMap, Option.bind_some, String.ofList_toList]

end Units

section Walk

/-- The user string in front, and what stands behind it. -/
def userString? (bytes : Bytes) : Option (String × Bytes) := do
  let (length, rest) ← Bytes.uncompress? bytes
  let (entry, rest) ← rest.take? length
  let text ← utf16Text? entry.dropLast
  return (text, rest)

/-- The user strings in front, as many as there are or as are asked for. -/
def userStringsUpTo : Nat → Bytes → List String
  | 0, _ => []
  | count + 1, bytes =>
    match userString? bytes with
    | some (text, rest) => text :: userStringsUpTo count rest
    | none => []

/-- The user strings of a heap, which are no more than it has bytes. -/
def userStringsOf (heap : Bytes) : List String := userStringsUpTo heap.length (heap.drop 1)

/-- The flag of a user string. -/
def userStringFlag (value : String) : UInt8 := if value.toList.any (0x80 ≤ ·.toNat) then 1 else 0

def userStringEntry (value : String) : Bytes :=
  Bytes.compressed ((utf16 value).length + 1) ++ utf16 value ++ [userStringFlag value]

/-- The length in front of an entry counts its units and the flag behind them. -/
theorem uncompress?_entry {value : String} (hshort : (utf16 value).length + 1 < 2 ^ 29) (rest : Bytes) :
    Bytes.uncompress? (userStringEntry value ++ rest) =
      some ((utf16 value ++ [userStringFlag value]).length, utf16 value ++ [userStringFlag value] ++ rest) := by
  rw [userStringEntry, List.append_assoc, List.append_assoc, Bytes.uncompress?_compressed (Nat.le_pred_of_lt hshort),
    List.append_assoc, List.length_append, List.length_singleton]

theorem userString?_entry {value : String} (hshort : (utf16 value).length + 1 < 2 ^ 29) (rest : Bytes) :
    userString? (userStringEntry value ++ rest) = some (value, rest) := by
  rw [userString?, uncompress?_entry hshort]
  dsimp only [Option.bind_eq_bind, Option.bind_some]
  rw [Bytes.take?_append]
  dsimp only [Option.bind_some]
  rw [List.dropLast_concat, utf16Text?_utf16]
  rfl

theorem userStringsUpTo_entries {values : List String} {fill : Bytes} {count : Nat}
    (hshort : ∀ value ∈ values, (utf16 value).length + 1 < 2 ^ 29) (hfill : userString? fill = none)
    (hcount : values.length < count) : userStringsUpTo count (values.flatMap userStringEntry ++ fill) = values := by
  induction values generalizing count with
  | nil =>
    obtain ⟨count, rfl⟩ := Nat.exists_eq_add_one_of_ne_zero (Nat.ne_zero_of_lt hcount)
    rw [List.flatMap_nil, List.nil_append, userStringsUpTo, hfill]
  | cons value values ih =>
    obtain ⟨count, rfl⟩ := Nat.exists_eq_add_one_of_ne_zero (Nat.ne_zero_of_lt hcount)
    rw [List.forall_mem_cons] at hshort
    rw [List.flatMap_cons, List.append_assoc, userStringsUpTo, userString?_entry hshort.1]
    dsimp only
    rw [ih hshort.2 (Nat.lt_of_succ_lt_succ hcount)]

/-- Bytes that fill up are no user string. -/
theorem userString?_fill (count : Nat) : userString? (List.replicate count 0xFF) = none := by
  cases count <;> rfl

variable {heap heap' : UserStringHeap} {values : List String}

/-- A user string is written at the end of the heap, and starts there. -/
theorem UserStringHeap.add_eq_ok {value : String} {offset : Nat}
    (h : UserStringHeap.add heap value = .ok (offset, heap')) :
    offset = heap.bytes.length ∧ heap'.bytes = heap.bytes ++ userStringEntry value := by
  obtain ⟨⟨⟩, -, h⟩ := bind_eq_ok.mp h
  obtain ⟨⟨⟩, -, h⟩ := bind_eq_ok.mp h
  cases h
  exact ⟨heap.length_bytes.symm, heap.bytes_append _⟩

/-- The heap grows by the entries of the strings. -/
theorem bytes_addAll_userStrings
    (h : values.foldlM (fun heap value => return (← UserStringHeap.add heap value).2) heap =
      (.ok heap' : Result UserStringHeap)) : heap'.bytes = heap.bytes ++ values.flatMap userStringEntry := by
  induction values generalizing heap with
  | nil =>
    cases h
    rw [List.flatMap_nil, List.append_nil]
  | cons value values ih =>
    rw [List.foldlM_cons] at h
    obtain ⟨first, hf, h⟩ := bind_eq_ok.mp h
    obtain ⟨⟨offset, next⟩, ha, hf⟩ := bind_eq_ok.mp hf
    cases hf
    rw [ih h, (UserStringHeap.add_eq_ok ha).2, List.flatMap_cons, List.append_assoc]

theorem length_le_length_entries (values : List String) : values.length ≤ (values.flatMap userStringEntry).length := by
  induction values with
  | nil => exact Nat.le_refl _
  | cons value values ih =>
    rw [List.flatMap_cons, List.length_append, List.length_cons, userStringEntry]
    simp only [List.length_append, List.length_singleton]
    omega

/-- The strings that were added are read back in their order. -/
theorem userStringsOf_finish
    (h : values.foldlM (fun heap value => return (← UserStringHeap.add heap value).2) {} =
      (.ok heap' : Result UserStringHeap)) (hshort : ∀ value ∈ values, (utf16 value).length + 1 < 2 ^ 29) :
    userStringsOf heap'.finish = values := by
  have hbytes : heap'.bytes = [0] ++ values.flatMap userStringEntry := bytes_addAll_userStrings h
  have hdrop : heap'.finish.drop 1 = values.flatMap userStringEntry ++
      List.replicate (Bytes.alignFour heap'.bytes.length - heap'.bytes.length) 0xFF := by
    rw [Heap.finish, Bytes.padToFour, hbytes, List.append_assoc]
    rfl
  have hcount : values.length < heap'.finish.length := by
    have hle := length_le_length_entries values
    have hlength := congrArg List.length hbytes
    rw [List.length_append, List.length_singleton] at hlength
    rw [Heap.finish, Bytes.padToFour, List.length_append]
    omega
  rw [userStringsOf, hdrop]
  exact userStringsUpTo_entries hshort (userString?_fill _) hcount

end Walk
end HotPatch.Image
