import HotPatch.Proofs.Attribute.ValueSegments

/-!
# Absent arrays and arrays of arrays

The standard leaves two kinds of value without a form of their own. The greatest
count stands for an array that is absent, so an array of just so many items does
not come back; and its grammar has no array for an item of an array, although
declared types of any depth can be written. All other values are read back.
-/

namespace HotPatch.Attribute

variable {reserved : Option Nat} {declared : ArgType}

namespace Argument

/-- A reader never answers with an array of the reserved number of items. -/
theorem yields_unreserved (declared : ArgType) :
    Yields (read reserved declared) (Everywhere children (UnreservedAt reserved)) := by
  have hleaf : ∀ {arg : Argument}, arg.children = [] → UnreservedAt reserved arg →
      Everywhere children (UnreservedAt reserved) arg := fun h => (everywhere_of_leaf h).mpr
  have hcount : Yields (readCount reserved) (reserved ≠ some ·) := by
    refine .after fun count => ?_
    split_ifs with hfound
    · exact .throw _
    · exact .pure hfound
  induction declared with
  | boolean | i4 | u4 | string | type => exact .after fun _ => .pure (hleaf rfl trivial)
  | vector element ih =>
    refine hcount.bind fun count hne => (ih.times count).bind fun items h => .pure ?_
    obtain ⟨rfl, heach⟩ := h
    exact everywhere_array.mpr ⟨hne, heach⟩

def isArray : Argument → Bool
  | .array _ => true
  | .bool _ | .i4 _ | .u4 _ | .string _ | .type _ => false

/-- No item of an array is an array. -/
def isFlat : Argument → Bool
  | .array items => items.all (!·.isArray)
  | .bool _ | .i4 _ | .u4 _ | .string _ | .type _ => true

end Argument

theorem NamedArgument.yields_unreserved : Yields (NamedArgument.read reserved) fun named =>
    Everywhere Argument.children (Argument.UnreservedAt reserved) named.value := by
  refine .after fun kind => .after fun argType => .after fun name =>
    (Argument.yields_unreserved argType).bind fun value hvalue => ?_
  split
  · exact .pure hvalue
  · exact .pure hvalue
  · exact .throw _

namespace Value

variable {value : Value} {blob : Bytes}

theorem yields_unreserved : Yields (read reserved) (Unreserved reserved) :=
  .after fun _ => .after fun _ => .after fun count =>
    (NamedArgument.yields_unreserved.times count).bind fun _ h => .pure h.2

/-- Exactly the values without an array of the reserved number of items are read back. -/
theorem reads_iff_unreserved (hshort : value.Short) (h : value.encode = .ok blob) :
    Reads (read reserved) blob value ↔ value.Unreserved reserved :=
  ⟨yields_unreserved.of_reads, fun hfree => reads_encode hshort hfree h⟩

/-- Items of arrays are no arrays. -/
def isFlat (value : Value) : Bool := value.named.all (·.value.isFlat)

/-- A reader that takes the grammar to the letter: it knows absent arrays, and no array as an item. -/
def readFlat : Reader Value := do
  let value ← read (some absentCount)
  if value.isFlat then return value else throw .outOfBounds

theorem reads_flat_iff (hshort : value.Short) (h : value.encode = .ok blob) :
    Reads readFlat blob value ↔ value.Unreserved (some absentCount) ∧ value.isFlat := by
  constructor
  · have hyields : Yields readFlat fun value => value.Unreserved (some absentCount) ∧ value.isFlat := by
      refine yields_unreserved.bind fun value hfree => ?_
      split_ifs with hflat
      · exact .pure ⟨hfree, hflat⟩
      · exact .throw _
    exact hyields.of_reads
  · rintro ⟨hfree, hflat⟩
    apply (reads_encode hshort hfree h).map
    rw [if_pos hflat]
    exact Reads.pure value

end Value

/-- Attribute values are read back from their blobs. A reader for which a count is a count takes back every
value with short strings, at all levels of arrays. One that knows absent arrays by the reserved count takes
back exactly those of them in which no array has just so many items, and one that knows no array as an item of
an array exactly those in which, besides, there is none. -/
theorem values_read_back :
    ReadBack Value.encode (Value.read none) Value.Short Value.Proper ∧
    ∀ value blob, Value.Short value → Value.encode value = .ok blob →
      (Reads (Value.read (some Value.absentCount)) blob value ↔ value.Unreserved (some Value.absentCount)) ∧
      (Reads Value.readFlat blob value ↔ value.Unreserved (some Value.absentCount) ∧ value.isFlat) := by
  constructor
  · refine .of_reads (fun _ => Value.exists_encode_iff) fun value blob hshort => ?_
    exact Value.reads_encode hshort fun _ _ part _ => Argument.unreservedAt_none part
  · exact fun value blob hshort h => ⟨Value.reads_iff_unreserved hshort h, Value.reads_flat_iff hshort h⟩

/-- Names of types, and arrays in an array, in which the absent string stands beside the empty one. -/
def nestedValue : Value where
  named :=
    [{ isField := true, name := "types", argType := .vector .type, value := .array [.type "System.Int32"] },
      { isField := false, name := "grid", argType := .vector (.vector .string),
        value := .array [.array [.string none, .string (some "")], .array []] }]

theorem values_read_back_nestedValue : nestedValue.Short ∧ ∃ blob, nestedValue.encode = .ok blob ∧
    Reads (Value.read (some Value.absentCount)) blob nestedValue ∧ ¬Reads Value.readFlat blob nestedValue := by
  have leaf : ∀ (p : Argument → Prop) arg, Argument.children arg = [] → p arg →
      Everywhere Argument.children p arg := fun p arg h => (everywhere_of_leaf h).mpr
  have hshort : nestedValue.Short := by
    simp only [nestedValue, Value.Short, List.forall_mem_cons]
    refine ⟨⟨by decide, ?_⟩, ⟨by decide, ?_⟩, List.forall_mem_nil _⟩
    · simp only [Argument.everywhere_array, List.forall_mem_cons]
      exact ⟨trivial, leaf _ _ rfl (show _ ≤ _ by decide), List.forall_mem_nil _⟩
    · simp only [Argument.everywhere_array, List.forall_mem_cons]
      exact ⟨trivial, ⟨trivial, leaf _ _ rfl nofun, leaf _ _ rfl (by rintro text ⟨⟩; decide), List.forall_mem_nil _⟩,
        ⟨trivial, List.forall_mem_nil _⟩, List.forall_mem_nil _⟩
  have hfree : nestedValue.Unreserved (some Value.absentCount) := by
    simp only [nestedValue, Value.Unreserved, List.forall_mem_cons, Argument.everywhere_array,
      Argument.UnreservedAt]
    refine ⟨⟨by decide, leaf _ _ rfl trivial, List.forall_mem_nil _⟩, ⟨by decide, ⟨by decide, leaf _ _ rfl trivial,
      leaf _ _ rfl trivial, List.forall_mem_nil _⟩, ⟨by decide, List.forall_mem_nil _⟩, List.forall_mem_nil _⟩,
      List.forall_mem_nil _⟩
  obtain ⟨-, hiff⟩ := values_read_back
  obtain ⟨blob, h⟩ : ∃ blob, nestedValue.encode = .ok blob := ⟨_, rfl⟩
  obtain ⟨hread, hflat⟩ := hiff nestedValue blob hshort h
  exact ⟨hshort, blob, h, hread.mpr hfree, fun hr => absurd (hflat.mp hr).2 (by decide)⟩

/-- One array with the given number of items. -/
def fullValue (count : Nat) : Value where
  named := [.field "flags" (.vector .boolean) (.array (List.replicate count (.bool true)))]

theorem short_fullValue (count : Nat) : (fullValue count).Short := by
  intro named hm
  rw [List.mem_singleton.mp hm]
  have hname : (Bytes.ofText "flags").length ≤ Bytes.compressedMax := by decide
  refine ⟨hname, Argument.everywhere_array.mpr ⟨trivial, fun item hi => ?_⟩⟩
  rw [List.eq_of_mem_replicate hi]
  exact (everywhere_of_leaf rfl).mpr trivial

theorem proper_fullValue {count : Nat} (h : count < 2 ^ 32) : (fullValue count).Proper where
  fixed := rfl
  count := show 1 ≤ 65535 by decide
  each named hm := by
    rw [List.mem_singleton.mp hm]
    refine .vector (by rwa [List.length_replicate]) fun item hi => ?_
    rw [List.eq_of_mem_replicate hi]
    exact .boolean true

theorem not_unreserved_fullValue (count : Nat) : ¬(fullValue count).Unreserved (some count) := by
  intro hfree
  have hroot := (Argument.everywhere_array.mp (hfree _ (List.mem_singleton_self _))).1
  exact hroot (congrArg some List.length_replicate.symm)

/-- A number in an array in an array. -/
def jaggedValue : Value where
  named := [.field "t" (.vector (.vector .i4)) (.array [.array [.i4 1]])]

/-- An array with the greatest count of items has a blob, and so has an array in an array; but a reader that
knows absent arrays does not take the first one back, and one that knows no array as an item of an array does
not take the second one back. -/
theorem encoded_but_not_read_back :
    ((fullValue Value.absentCount).Short ∧ (fullValue Value.absentCount).Proper ∧
      ∃ blob, (fullValue Value.absentCount).encode = .ok blob ∧
        ¬Reads (Value.read (some Value.absentCount)) blob (fullValue Value.absentCount)) ∧
    jaggedValue.Short ∧ jaggedValue.Proper ∧
      ∃ blob, jaggedValue.encode = .ok blob ∧ ¬Reads Value.readFlat blob jaggedValue := by
  have hfull := proper_fullValue (show Value.absentCount < 2 ^ 32 by decide)
  obtain ⟨long, hlong⟩ := Value.exists_encode_iff.mpr hfull
  have hjagged : jaggedValue.Short := by
    intro named hm
    rw [List.mem_singleton.mp hm]
    refine ⟨by decide, ?_⟩
    simp only [NamedArgument.field, Argument.everywhere_array, List.forall_mem_singleton]
    exact ⟨trivial, trivial, (everywhere_of_leaf rfl).mpr trivial⟩
  obtain ⟨blob, h⟩ : ∃ blob, jaggedValue.encode = .ok blob := ⟨_, rfl⟩
  refine ⟨⟨short_fullValue _, hfull, long, hlong, fun hr => ?_⟩, hjagged, Value.exists_encode_iff.mp ⟨blob, h⟩, blob, h,
    fun hr => ?_⟩
  · exact not_unreserved_fullValue _ ((Value.reads_iff_unreserved (short_fullValue _) hlong).mp hr)
  · exact absurd ((Value.reads_flat_iff hjagged h).mp hr).2 (by decide)

end HotPatch.Attribute
