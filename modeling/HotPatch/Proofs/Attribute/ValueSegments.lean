import HotPatch.Proofs.Attribute.ValueReader
import HotPatch.Proofs.Bytes.Segments

/-!
# What attribute values put out

The numbers of arguments and items are checked and go out with a fixed width. The
lengths of names and strings are the only numbers in compressed form, and no one
checks these.
-/

namespace HotPatch.Attribute

open Segment (Unclamped)

variable {written : List Segment} {declared : ArgType} {arg : Argument} {reserved : Option Nat}

namespace Argument

/-- The segments of a value, by its declared type. -/
def segments : ArgType → Argument → Result (List Segment)
  | .boolean, .bool value => .ok [.plain [value.toUInt8]]
  | .i4, .i4 value => .ok [.plain (Bytes.littleEndian 4 value.toUInt32.toNat)]
  | .u4, .u4 value => .ok [.plain (Bytes.littleEndian 4 value.toNat)]
  | .string, .string value => .ok (Segment.text value)
  | .type, .type name => .ok (Segment.text (some name))
  | .vector element, .array items =>
    if items.length < 0x100000000 then
      return .plain (Bytes.littleEndian 4 items.length) :: (← items.mapM (segments element)).flatten
    else malformed (.longArray items.length)
  | expected, found => malformed (.argumentType found expected)

theorem encode_eq (declared : ArgType) (arg : Argument) :
    encode declared arg = Segment.write <$> segments declared arg := by
  induction declared generalizing arg with
  | vector element ih =>
    cases arg with
    | array items =>
      have hitems := congrArg ((Bytes.littleEndian 4 items.length ++ ·) <$> ·)
        (Segment.write_mapM fun item (_ : item ∈ items) => ih item)
      rw [encode, segments, encodeAll_eq_mapM]
      split_ifs
      · simpa using hitems
      · rfl
    | _ => rfl
  | _ => cases arg <;> simp [encode, segments, malformed, Except.map_ok, Except.map_error]

/-- The numbers of a value are small exactly if its strings are short. -/
theorem unclamped_segments (h : segments declared arg = .ok written) :
    Unclamped written ↔ Everywhere children ShortAt arg := by
  have hmatches : Matches declared arg := by
    rw [← exists_encode_iff, encode_eq, h]
    exact ⟨_, rfl⟩
  induction hmatches generalizing written with
  | string value =>
    cases h
    rw [Segment.unclamped_text, everywhere_of_leaf rfl, ShortAt]
  | type name =>
    cases h
    simp [Segment.unclamped_text, everywhere_type]
  | @vector element items count each ih =>
    rw [segments, if_pos (show items.length < 0x100000000 from count)] at h
    obtain ⟨pieces, hpieces, h⟩ := bind_eq_ok.mp h
    cases h
    rw [Segment.unclamped_plain, Segment.unclamped_mapM (fun item hi _ => ih item hi) hpieces, everywhere_array]
    exact (and_iff_right trivial).symm
  | _ =>
    cases h
    exact iff_of_true (by simp) ((everywhere_of_leaf rfl).mpr trivial)

theorem yields_read (declared : ArgType) : Yields (read reserved declared) (Everywhere children ShortAt) := by
  have hleaf : ∀ {arg : Argument}, arg.children = [] → ShortAt arg → Everywhere children ShortAt arg :=
    fun h => (everywhere_of_leaf h).mpr
  induction declared with
  | boolean | i4 | u4 => exact .after fun _ => .pure (hleaf rfl trivial)
  | string => exact Yields.countedText.bind fun _ h => .pure (hleaf rfl h)
  | type => exact Yields.text.bind fun _ h => .pure (hleaf rfl h)
  | vector element ih =>
    exact .after fun count => (ih.times count).bind fun items h => .pure (everywhere_array.mpr ⟨trivial, h.2⟩)

end Argument

namespace NamedArgument

variable {named : NamedArgument}

def segments (named : NamedArgument) : Result (List Segment) := do
  let value ← named.value.segments named.argType
  return .plain ((if named.isField then 0x53 else 0x54) :: named.argType.encode) ::
    Segment.text (some named.name) ++ value

theorem encode_eq (named : NamedArgument) : named.encode = Segment.write <$> named.segments := by
  unfold encode segments
  rw [Argument.encode_eq]
  simp

theorem unclamped_segments (h : named.segments = .ok written) : Unclamped written ↔ named.Short := by
  obtain ⟨value, hvalue, h⟩ := bind_eq_ok.mp h
  cases h
  rw [List.cons_append, Segment.unclamped_plain, Segment.unclamped_append, Segment.unclamped_text,
    Argument.unclamped_segments hvalue]
  constructor
  · rintro ⟨hname, hshort⟩
    exact ⟨hname _ rfl, hshort⟩
  · intro h
    refine ⟨?_, h.value⟩
    rintro _ ⟨⟩
    exact h.name

theorem yields_read : Yields (read reserved) Short := by
  refine .after fun kind => .after fun argType => Yields.text.bind fun name hname =>
    (Argument.yields_read argType).bind fun value hvalue => ?_
  split
  · exact .pure ⟨hname, hvalue⟩
  · exact .pure ⟨hname, hvalue⟩
  · exact .throw _

end NamedArgument

namespace Value

variable {value : Value}

def segments (value : Value) : Result (List Segment) :=
  if !value.fixed.isEmpty then malformed (.fixedArguments value.fixed.length)
  else if value.named.length < 0x10000 then do
    let args ← value.named.mapM NamedArgument.segments
    return .plain ([0x01, 0x00] ++ Bytes.littleEndian 2 value.named.length) :: args.flatten
  else malformed (.namedArguments value.named.length)

theorem encode_eq (value : Value) : value.encode = Segment.write <$> value.segments := by
  have hnamed := congrArg (([0x01, 0x00] ++ Bytes.littleEndian 2 value.named.length ++ ·) <$> ·)
    (Segment.write_mapM fun named (_ : named ∈ value.named) => named.encode_eq)
  unfold encode segments
  split_ifs
  · rfl
  · simpa using hnamed
  · rfl

theorem unclamped_segments (h : value.segments = .ok written) : Unclamped written ↔ value.Short := by
  unfold segments at h
  split_ifs at h
  · cases h
  · obtain ⟨pieces, hpieces, h⟩ := bind_eq_ok.mp h
    cases h
    rw [Segment.unclamped_plain]
    exact Segment.unclamped_mapM (fun _ _ _ => NamedArgument.unclamped_segments) hpieces
  · cases h

theorem yields_read : Yields (read reserved) Short :=
  .after fun _ => .after fun _ => .after fun count =>
    (NamedArgument.yields_read.times count).bind fun _ h => .pure h.2

theorem encode_puts (value : Value) : Puts encode segments (read none) Short value :=
  .of_reads value.encode_eq (fun _ => unclamped_segments)
    (fun _ hshort => reads_encode hshort fun _ _ part _ => Argument.unreservedAt_none part) yields_read

end Value
end HotPatch.Attribute
