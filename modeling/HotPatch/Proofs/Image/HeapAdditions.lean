import HotPatch.Proofs.Body.Encoding
import HotPatch.Proofs.Bytes.CompressedReader
import HotPatch.Proofs.Image.UserStringReader

/-!
# Values added one after another

Whatever is added to a heap later, a value is read in the finished bytes at the
offset that was answered for it. Strings and blobs share entries, so two of them
have one offset exactly if they are equal. User strings share nothing: a walk
over the entries meets all of them in their order, each with its flag, and stops
where the heap ends or is filled up.
-/

namespace HotPatch.Image

section Sharing

variable {α : Type} {entry : α → Bytes} {empty value : α} {heap next last : Heap α} {offset : Nat}
  {add : Heap α → α → Result (Nat × Heap α)}

/-- The empty value is known by the first offset, any other one by the offset of its entry. -/
def Heap.Knows [BEq α] (empty : α) (heap : Heap α) (value : α) (offset : Nat) : Prop :=
  value = empty ∧ offset = 0 ∨ value ≠ empty ∧ heap.offsets.lookup value = some offset

variable [BEq α]

theorem Heap.Knows.unique {other : Nat} (h : heap.Knows empty value offset) (h' : heap.Knows empty value other) :
    offset = other := by
  rcases h with ⟨he, rfl⟩ | ⟨hne, hl⟩ <;> rcases h' with ⟨he', rfl⟩ | ⟨hne', hl'⟩
  · rfl
  · exact absurd he hne'
  · exact absurd he' hne
  · exact Option.some.inj (hl.symm.trans hl')

/-- Every addition places the entry of its value, and the heap knows the value from then on. -/
structure Heap.Adds (entry : α → Bytes) (empty : α) (add : Heap α → α → Result (Nat × Heap α)) : Prop where
  placed : ∀ {heap value offset next}, heap.Holds entry → add heap value = .ok (offset, next) →
    heap.Placed entry value offset next
  known : ∀ {heap value offset next}, add heap value = .ok (offset, next) → next.Knows empty value offset ∧
    ∀ other place, heap.Knows empty other place → next.Knows empty other place

/-- A value is known once it was added, and all others stay known. -/
theorem Heap.Added.known [LawfulBEq α] (h : heap.Added entry empty value offset next) :
    next.Knows empty value offset ∧ ∀ other place, heap.Knows empty other place → next.Knows empty other place := by
  cases h with
  | empty he => exact ⟨.inl ⟨he, rfl⟩, fun _ _ ho => ho⟩
  | found hne known => exact ⟨.inr ⟨hne, known⟩, fun _ _ ho => ho⟩
  | written hne unknown =>
    refine ⟨.inr ⟨hne, List.lookup_cons_self⟩, fun other place ho => ?_⟩
    rcases ho with ho | ⟨hother, hlookup⟩
    · exact .inl ho
    · refine .inr ⟨hother, ?_⟩
      dsimp only
      rw [List.lookup_cons]
      split
      · rename_i heq
        rw [eq_of_beq heq, unknown] at hlookup
        cases hlookup
      · exact hlookup

/-- After all additions each value is known by its offset, and its entry stands there. -/
theorem Heap.Adds.addEach (ha : Heap.Adds entry empty add) {values : List α} {entries : List (Nat × Nat)}
    (hholds : heap.Holds entry) (h : Heap.addEach add values heap = .ok (entries, last)) :
    heap.bytes <+: last.bytes ∧ (∀ other place, heap.Knows empty other place → last.Knows empty other place) ∧
      List.Forall₂ (fun value offset => last.Knows empty value offset ∧ entry value <+: last.bytes.drop offset)
        values (entries.map (·.1)) := by
  induction values generalizing heap entries with
  | nil =>
    cases h
    exact ⟨List.prefix_refl _, fun _ _ hk => hk, .nil⟩
  | cons value values ih =>
    obtain ⟨⟨offset, next⟩, hadd, h⟩ := bind_eq_ok.mp h
    obtain ⟨⟨others, final⟩, hothers, h⟩ := bind_eq_ok.mp h
    cases h
    have hplaced := ha.placed hholds hadd
    obtain ⟨hknown, hkeeps⟩ := ha.known hadd
    obtain ⟨hgrows, hknows, hall⟩ := ih hplaced.holds hothers
    exact ⟨hplaced.grows.trans hgrows, fun other place hk => hknows other place (hkeeps other place hk),
      .cons ⟨hknows value offset hknown, hplaced.entered.trans (hgrows.drop offset)⟩ hall⟩

/-- Each value is read at its offset, the empty one at the first, and no two values have one offset. -/
structure Answers (empty : α) (read : Nat → Option α) (values : List α) (offsets : List Nat) : Prop where
  length : values.length = offsets.length
  found : ∀ added ∈ values.zip offsets, read added.2 = some added.1
  empty : ∀ added ∈ values.zip offsets, added.2 = 0 ↔ added.1 = empty
  shared : ∀ added ∈ values.zip offsets, ∀ other ∈ values.zip offsets, added.2 = other.2 ↔ added.1 = other.1

theorem Heap.Adds.answers (ha : Heap.Adds entry empty add) {values : List α} {entries : List (Nat × Nat)}
    {read : Nat → Option α} (h : Heap.addEach add values {} = .ok (entries, last)) (hempty : entry empty = [0])
    (hread : ∀ value, value = empty ∨ value ∈ values → ∀ offset, entry value <+: last.finish.drop offset →
      read offset = some value) : Answers empty read values (entries.map (·.1)) := by
  have hgrows : last.bytes <+: last.finish := List.prefix_append _ _
  obtain ⟨hopens, -, hall⟩ := ha.addEach Heap.holds_empty h
  obtain ⟨hlength, hall⟩ := List.forall₂_iff_zip.mp hall
  have hpairs : ∀ added ∈ values.zip (entries.map (·.1)), last.Knows empty added.1 added.2 ∧
      read added.2 = some added.1 := by
    intro added hm
    obtain ⟨hknown, hentered⟩ := hall hm
    exact ⟨hknown, hread added.1 (.inr (List.of_mem_zip hm).1) added.2 (hentered.trans (hgrows.drop added.2))⟩
  have hfirst : read 0 = some empty := by
    refine hread empty (.inl rfl) 0 ?_
    rw [hempty]
    exact hopens.trans hgrows
  refine ⟨hlength, fun added hm => (hpairs added hm).2, fun added hm => ⟨fun hzero => ?_, fun he => ?_⟩,
    fun added hm other ho => ⟨fun hsame => ?_, fun hsame => ?_⟩⟩
  · have hvalue := (hpairs added hm).2
    rw [hzero, hfirst] at hvalue
    exact (Option.some.inj hvalue).symm
  · exact (hpairs added hm).1.unique (.inl ⟨he, rfl⟩)
  · have hvalue := (hpairs added hm).2
    rw [hsame, (hpairs other ho).2] at hvalue
    exact (Option.some.inj hvalue).symm
  · have hknown := (hpairs other ho).1
    rw [← hsame] at hknown
    exact (hpairs added hm).1.unique hknown

end Sharing

section Instances

theorem adds_string : Heap.Adds stringEntry "" StringHeap.add where
  placed := placed_string
  known h := (added_string h).known

theorem adds_blob : Heap.Adds blobEntry [] BlobHeap.add where
  placed := placed_blob
  known h := (added_blob h).known

/-- The strings that were added, read up to the zero behind them. -/
theorem answers_strings {values : List String} {entries : List (Nat × Nat)} {strings : StringHeap}
    (h : StringHeap.addAll values {} = .ok (entries, strings)) (hzero : ∀ value ∈ values, '\x00' ∉ value.toList) :
    Answers "" (fun offset => (Header.textAt strings.finish offset).toOption) values (entries.map (·.1)) := by
  refine adds_string.answers h rfl fun value hv offset hentered => ?_
  have hnull : '\x00' ∉ value.toList := by
    rcases hv with rfl | hm
    · decide
    · exact hzero value hm
  rw [textAt_of_entered hnull hentered]
  rfl

/-- The blobs that were added, read by their lengths. -/
theorem answers_blobs {blobs : List Bytes} {entries : List (Nat × Nat)} {heap : BlobHeap}
    (h : BlobHeap.addAll blobs {} = .ok (entries, heap)) (hshort : ∀ blob ∈ blobs, blob.length < 2 ^ 29) :
    Answers [] (blobAt? heap.finish) blobs (entries.map (·.1)) := by
  refine adds_blob.answers h rfl fun blob hb offset hentered => blobAt?_of_entered ?_ hentered
  rcases hb with rfl | hm
  · decide
  · exact hshort blob hm

end Instances

section Walk

/-- A user string as it is met, with where it starts and the flag behind it. -/
structure UserEntry where
  offset : Nat
  text : String
  flag : UInt8
  deriving DecidableEq, Repr

/-- The user string in front with its flag, and what stands behind it. -/
def flaggedString? (bytes : Bytes) : Option ((String × UInt8) × Bytes) := do
  let (length, rest) ← Bytes.uncompress? bytes
  let (entry, rest) ← rest.take? length
  let text ← utf16Text? entry.dropLast
  let flag ← entry.getLast?
  return ((text, flag), rest)

theorem Bytes.length_lt_of_uncompress? {bytes rest : Bytes} {value : Nat}
    (h : bytes.uncompress? = some (value, rest)) : rest.length < bytes.length := by
  unfold Bytes.uncompress? at h
  split at h
  · cases h
  · rename_i first behind
    rw [List.length_cons]
    split_ifs at h
    · cases h
      omega
    · split at h <;> cases h
      rw [List.length_cons]
      omega
    · split at h <;> cases h
      simp only [List.length_cons]
      omega

theorem length_lt_of_flaggedString? {bytes rest : Bytes} {found : String × UInt8}
    (h : flaggedString? bytes = some (found, rest)) : rest.length < bytes.length := by
  unfold flaggedString? at h
  simp only [Option.bind_eq_bind, Option.bind_eq_some_iff] at h
  obtain ⟨⟨length, tail⟩, hlength, ⟨entry, behind⟩, hentry, text, -, flag, -, h⟩ := h
  cases h
  have htail := Bytes.length_lt_of_uncompress? hlength
  obtain ⟨rfl, -⟩ := Bytes.append_of_take? hentry
  rw [List.length_append] at htail
  exact Nat.lt_of_le_of_lt (Nat.le_add_left _ _) htail

/-- All user strings from a place on, up to the end of the heap or the first byte that fills it up. -/
def userEntriesFrom? (offset : Nat) (bytes : Bytes) : Option (List UserEntry) :=
  if bytes = [] ∨ bytes.head? = some 0xFF then some []
  else
    match _ : flaggedString? bytes with
    | some ((text, flag), rest) =>
      (userEntriesFrom? (offset + (bytes.length - rest.length)) rest).map (⟨offset, text, flag⟩ :: ·)
    | none => none
  termination_by bytes.length
  decreasing_by exact length_lt_of_flaggedString? ‹_›

/-- The user strings of a heap, which start behind its zero byte. -/
def userEntries? (heap : Bytes) : Option (List UserEntry) := userEntriesFrom? 1 (heap.drop 1)

theorem flaggedString?_entry {value : String} (hshort : (utf16 value).length < 2 ^ 29 - 1) (rest : Bytes) :
    flaggedString? (userStringEntry value ++ rest) = some ((value, userStringFlag value), rest) := by
  rw [flaggedString?, uncompress?_entry (by omega)]
  dsimp only [Option.bind_eq_bind, Option.bind_some]
  rw [Bytes.take?_append]
  dsimp only [Option.bind_some]
  rw [List.dropLast_concat, utf16Text?_utf16, List.getLast?_concat]
  rfl

theorem userEntriesFrom?_entry {value : String} (hshort : (utf16 value).length < 2 ^ 29 - 1) (offset : Nat)
    (rest : Bytes) : userEntriesFrom? offset (userStringEntry value ++ rest) =
      (userEntriesFrom? (offset + (userStringEntry value).length) rest).map
        (⟨offset, value, userStringFlag value⟩ :: ·) := by
  have hgoes : ¬(userStringEntry value ++ rest = [] ∨ (userStringEntry value ++ rest).head? = some 0xFF) := by
    obtain ⟨first, hfirst, hlow⟩ := Bytes.exists_head_compressed ((utf16 value).length + 1)
    have hhead : (userStringEntry value ++ rest).head? = some first := by
      rw [userStringEntry, List.append_assoc, List.append_assoc, List.head?_append, hfirst, Option.some_or]
    rintro (hnil | hfill)
    · rw [hnil] at hhead
      cases hhead
    · cases hfill.symm.trans hhead
      exact absurd hlow (by decide)
  rw [userEntriesFrom?, if_neg hgoes]
  split
  · rename_i text flag tail h
    rw [flaggedString?_entry hshort] at h
    cases h
    rw [List.length_append, Nat.add_sub_cancel]
  · rename_i h
    rw [flaggedString?_entry hshort] at h
    cases h

theorem userEntriesFrom?_fill (offset count : Nat) : userEntriesFrom? offset (List.replicate count 0xFF) = some [] := by
  rw [userEntriesFrom?, if_pos]
  cases count with
  | zero => exact .inl rfl
  | succ count => exact .inr rfl

/-- The entries that additions leave, each at the offset that was answered for it. -/
def userEntry (added : String × Nat) : UserEntry := ⟨added.2, added.1, userStringFlag added.1⟩

/-- What the additions wrote behind a heap is met string by string, from its end on. -/
theorem userEntriesFrom?_addEach {values : List String} {entries : List (Nat × Nat)} {heap last : UserStringHeap}
    (h : Heap.addEach UserStringHeap.add values heap = .ok (entries, last))
    (hshort : ∀ value ∈ values, (utf16 value).length < 2 ^ 29 - 1) (fill : Nat) :
    values.length = entries.length ∧ ∃ written, last.bytes = heap.bytes ++ written ∧
      userEntriesFrom? heap.bytes.length (written ++ List.replicate fill 0xFF) =
        some ((values.zip (entries.map (·.1))).map userEntry) := by
  induction values generalizing heap entries with
  | nil =>
    cases h
    exact ⟨rfl, [], (List.append_nil _).symm, userEntriesFrom?_fill _ _⟩
  | cons value values ih =>
    rw [List.forall_mem_cons] at hshort
    obtain ⟨⟨offset, next⟩, hadd, h⟩ := bind_eq_ok.mp h
    obtain ⟨⟨others, final⟩, hothers, h⟩ := bind_eq_ok.mp h
    cases h
    obtain ⟨hoffset, hnext⟩ := UserStringHeap.add_eq_ok hadd
    -- the walk goes on behind this entry, where the next heap ends as well
    obtain ⟨hlength, written, hlast, hwalk⟩ := ih hothers hshort.2
    refine ⟨congrArg (· + 1) hlength, userStringEntry value ++ written, ?_, ?_⟩
    · rw [hlast, hnext, List.append_assoc]
    · rw [hnext, List.length_append] at hwalk
      rw [List.append_assoc, userEntriesFrom?_entry hshort.1, hwalk, hoffset]
      rfl

/-- A heap is filled up to a multiple of four with at most three bytes. -/
theorem Heap.finish_eq {α : Type} (heap : Heap α) : 4 ∣ heap.finish.length ∧
    ∃ fill ≤ 3, heap.finish = heap.bytes ++ List.replicate fill 0xFF := by
  refine ⟨?_, _, ?_, rfl⟩
  · rw [Heap.finish, length_padToFour]
    exact Nat.dvd_of_mod_eq_zero (Bytes.alignFour_mod _)
  · rw [Bytes.alignFour]
    omega

/-- The walk meets the values in their order at their offsets, and flags those that are not all ASCII. -/
structure Met (values : List String) (offsets : List Nat) (entries : List UserEntry) : Prop where
  texts : entries.map (·.text) = values
  offsets : entries.map (·.offset) = offsets
  flags : ∀ entry ∈ entries, (entry.flag = 0 ∨ entry.flag = 1) ∧
    (entry.flag = 1 ↔ ∃ c ∈ entry.text.toList, 0x80 ≤ c.toNat)

theorem userStringFlag_cases (value : String) : (userStringFlag value = 0 ∨ userStringFlag value = 1) ∧
    (userStringFlag value = 1 ↔ ∃ c ∈ value.toList, 0x80 ≤ c.toNat) := by
  rw [userStringFlag]
  split_ifs with h
  · exact ⟨.inr rfl, fun _ => by simpa using h, fun _ => rfl⟩
  · exact ⟨.inl rfl, fun hflag => absurd hflag (by decide), fun hc => absurd (by simpa using hc) h⟩

theorem met_userEntry {values : List String} {offsets : List Nat} (h : values.length = offsets.length) :
    Met values offsets ((values.zip offsets).map userEntry) where
  texts := by
    rw [List.map_map]
    exact List.map_fst_zip (Nat.le_of_eq h)
  offsets := by
    rw [List.map_map]
    exact List.map_snd_zip (Nat.le_of_eq h.symm)
  flags entry hm := by
    obtain ⟨added, -, rfl⟩ := List.mem_map.mp hm
    exact userStringFlag_cases added.1

/-- A walk over the finished heap meets the strings that were added, and nothing else. -/
theorem userEntries?_finish {values : List String} {entries : List (Nat × Nat)} {heap : UserStringHeap}
    (h : UserStringHeap.addAll values {} = .ok (entries, heap))
    (hshort : ∀ value ∈ values, (utf16 value).length < 2 ^ 29 - 1) :
    ∃ found, userEntries? heap.finish = some found ∧ Met values (entries.map (·.1)) found := by
  obtain ⟨-, fill, -, hfinish⟩ := heap.finish_eq
  obtain ⟨hlength, written, hbytes, hwalk⟩ := userEntriesFrom?_addEach h hshort fill
  refine ⟨_, ?_, met_userEntry (by rw [hlength, List.length_map])⟩
  rw [userEntries?, hfinish, hbytes]
  exact hwalk

end Walk

/-- What was added to a heap is found in its finished bytes, whatever was added behind it. -/
theorem additions_readBack :
    (∀ values entries strings, StringHeap.addAll values {} = .ok (entries, strings) →
      (∀ value ∈ values, '\x00' ∉ value.toList) →
        Answers "" (fun offset => (Header.textAt strings.finish offset).toOption) values (entries.map (·.1))) ∧
    (∀ values entries blobs, BlobHeap.addAll values {} = .ok (entries, blobs) →
      (∀ value ∈ values, value.length < 2 ^ 29) →
        Answers [] (blobAt? blobs.finish) values (entries.map (·.1))) ∧
    (∀ values entries userStrings, UserStringHeap.addAll values {} = .ok (entries, userStrings) →
      (∀ value ∈ values, (utf16 value).length < 2 ^ 29 - 1) →
        ∃ found, userEntries? userStrings.finish = some found ∧ Met values (entries.map (·.1)) found) ∧
    ∀ (α : Type) (heap : Heap α), 4 ∣ heap.finish.length ∧
      ∃ fill ≤ 3, heap.finish = heap.bytes ++ List.replicate fill 0xFF :=
  ⟨fun _ _ _ => answers_strings, fun _ _ _ => answers_blobs, fun _ _ _ => userEntries?_finish,
    fun _ heap => heap.finish_eq⟩

/-- Names with a repetition, a blob that repeats behind another, and user strings inside and outside ASCII. -/
theorem additions_readBack_repeated :
    (∃ entries strings, StringHeap.addAll ["Game", "", "Cache", "Game"] {} = .ok (entries, strings) ∧
      entries.map (·.1) = [1, 0, 6, 1] ∧ Answers "" (fun offset => (Header.textAt strings.finish offset).toOption)
        ["Game", "", "Cache", "Game"] [1, 0, 6, 1]) ∧
    (∃ entries blobs, BlobHeap.addAll [[0x20, 0, 1], [6, 8], [], [0x20, 0, 1]] {} = .ok (entries, blobs) ∧
      entries.map (·.1) = [1, 5, 0, 1] ∧
        Answers [] (blobAt? blobs.finish) [[0x20, 0, 1], [6, 8], [], [0x20, 0, 1]] [1, 5, 0, 1]) ∧
    (∃ entries userStrings, UserStringHeap.addAll ["Hi", "é𝄞", "", "Hi"] {} = .ok (entries, userStrings) ∧
      entries.map (·.1) = [1, 7, 15, 17] ∧ ∃ found, userEntries? userStrings.finish = some found ∧
        Met ["Hi", "é𝄞", "", "Hi"] [1, 7, 15, 17] found) := by
  obtain ⟨hnames, hblobs, huser, -⟩ := additions_readBack
  exact ⟨⟨_, _, rfl, rfl, hnames ["Game", "", "Cache", "Game"] _ _ rfl (by decide)⟩,
    ⟨_, _, rfl, rfl, hblobs [[0x20, 0, 1], [6, 8], [], [0x20, 0, 1]] _ _ rfl (by decide)⟩,
    ⟨_, _, rfl, rfl, huser ["Hi", "é𝄞", "", "Hi"] _ _ rfl (by decide)⟩⟩

end HotPatch.Image
