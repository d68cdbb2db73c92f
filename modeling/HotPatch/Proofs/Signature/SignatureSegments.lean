import HotPatch.Proofs.Bytes.Segments
import HotPatch.Proofs.Signature.SignatureBlobs

/-!
# What signatures put out

A token goes out as its coded index, which always has a compressed form. The
indices of parameters, and the numbers of arguments, parameters and local
variables, go out unchecked, so it is up to the signature whether they have one.
-/

namespace HotPatch

open Segment (Unclamped)

variable {written : List Segment}

namespace TypeSig

variable {sig : TypeSig} {args : List TypeSig}

mutual

/-- The segments of a type. -/
def segments : TypeSig → Result (List Segment)
  | .primitive type => .ok [.plain [type.code]]
  | .class token => return [.plain [0x12], .number (← token.codedIndex)]
  | .valueType token => return [.plain [0x11], .number (← token.codedIndex)]
  | .typeParam index => .ok [.plain [0x13], .number index]
  | .methodParam index => .ok [.plain [0x1E], .number index]
  | .generic base args =>
    if base.isNamed then do
      let head ← segments base
      return .plain [0x15] :: head ++ .number args.length :: (← segmentsAll args)
    else malformed (.genericBase base)
  | .vector element => return .plain [0x1D] :: (← segments element)
  | .byRef target => return .plain [0x10] :: (← segments target)

def segmentsAll : List TypeSig → Result (List Segment)
  | [] => .ok []
  | type :: types => do
    let head ← segments type
    return head ++ (← segmentsAll types)

end

def segmentsField (type : TypeSig) : Result (List Segment) := return .plain [0x06] :: (← type.segments)

def segmentsLocals (types : List TypeSig) : Result (List Segment) :=
  return .plain [0x07] :: .number types.length :: (← segmentsAll types)

def segmentsMethodInstantiation (args : List TypeSig) : Result (List Segment) :=
  if args.isEmpty then malformed .emptyMethodInstantiation
  else return .plain [0x0A] :: .number args.length :: (← segmentsAll args)

theorem segmentsAll_eq_mapM : segmentsAll args = return (← args.mapM segments).flatten := by
  induction args with
  | nil => rfl
  | cons arg args ih =>
    rw [segmentsAll, List.mapM_cons, ih]
    simp only [bind_assoc, pure_bind, List.flatten_cons]

theorem encodeAll_eq_of_each (h : ∀ arg ∈ args, arg.encode = Segment.write <$> arg.segments) :
    encodeAll args = Segment.write <$> segmentsAll args := by
  simpa [encodeAll_eq_mapM, segmentsAll_eq_mapM] using Segment.write_mapM h

theorem encode_eq (sig : TypeSig) : sig.encode = Segment.write <$> sig.segments := by
  induction sig using induct with
  | primitive type => rfl
  | typeParam index | methodParam index => simp [encode, segments, Except.map_ok]
  | named token | valueType token => simp [encode, segments]
  | vector element ih | byRef element ih => simp [encode, segments, ih]
  | generic base args ihbase ihargs =>
    rw [encode, segments, ihbase, encodeAll_eq_of_each ihargs]
    split_ifs
    · simp
    · rfl

theorem encodeAll_eq (args : List TypeSig) : encodeAll args = Segment.write <$> segmentsAll args :=
  encodeAll_eq_of_each fun arg _ => encode_eq arg

theorem unclamped_all_of_each
    (h : ∀ arg ∈ args, ∀ written, arg.segments = .ok written → (Unclamped written ↔ arg.Narrow))
    (hw : segmentsAll args = .ok written) : Unclamped written ↔ ∀ arg ∈ args, arg.Narrow := by
  rw [segmentsAll_eq_mapM] at hw
  obtain ⟨pieces, hpieces, hw⟩ := bind_eq_ok.mp hw
  cases hw
  exact Segment.unclamped_mapM h hpieces

theorem narrow_of_leaf (hleaf : sig.children = []) (h : sig.NarrowAt) : sig.Narrow := (everywhere_of_leaf hleaf).mpr h

/-- The numbers of a type are small exactly if its indices and its counts of arguments are. -/
theorem unclamped_segments (h : sig.segments = .ok written) : Unclamped written ↔ sig.Narrow := by
  induction sig using induct generalizing written with
  | primitive type =>
    cases h
    exact iff_of_true (by simp) (narrow_of_leaf rfl trivial)
  | typeParam index =>
    cases h
    simp [narrow_typeParam]
  | methodParam index =>
    cases h
    simp [narrow_methodParam]
  | named token | valueType token =>
    obtain ⟨index, hindex, h⟩ := bind_eq_ok.mp h
    cases h
    exact iff_of_true (by simpa using (Token.codedIndex_eq_ok hindex).2) (narrow_of_leaf rfl trivial)
  | vector element ih =>
    obtain ⟨inner, hinner, h⟩ := bind_eq_ok.mp h
    cases h
    rw [Segment.unclamped_plain, ih hinner, narrow_vector]
  | byRef target ih =>
    obtain ⟨inner, hinner, h⟩ := bind_eq_ok.mp h
    cases h
    rw [Segment.unclamped_plain, ih hinner, narrow_byRef]
  | generic base args ihbase ihargs =>
    rw [segments] at h
    split_ifs at h
    · obtain ⟨head, hhead, h⟩ := bind_eq_ok.mp h
      obtain ⟨rest, hrest, h⟩ := bind_eq_ok.mp h
      cases h
      rw [List.cons_append, Segment.unclamped_plain, Segment.unclamped_append, Segment.unclamped_number,
        ihbase hhead, unclamped_all_of_each (fun arg ha _ => ihargs arg ha) hrest, narrow_generic]
      tauto
    · cases h

theorem unclamped_all (h : segmentsAll args = .ok written) : Unclamped written ↔ ∀ arg ∈ args, arg.Narrow :=
  unclamped_all_of_each (fun _ _ _ => unclamped_segments) h

theorem allNarrow_iff : AllNarrow args ↔ args.length ≤ Bytes.compressedMax ∧ ∀ arg ∈ args, arg.Narrow :=
  ⟨fun h => ⟨h.count, h.each⟩, fun h => ⟨h.1, h.2⟩⟩

theorem yields_leaf (kind : Nat) : Yields (readLeaf kind) Narrow := by
  have hnamed : ∀ make : Token → TypeSig, (∀ token, (make token).Narrow) →
      Yields (return make (← readToken)) Narrow := fun make h => .after fun token => .pure (h token)
  unfold readLeaf
  split
  · exact hnamed .valueType fun token => narrow_of_leaf rfl trivial
  · exact hnamed .class fun token => narrow_of_leaf rfl trivial
  · exact Yields.compressed.bind fun index h => .pure (narrow_typeParam.mpr h)
  · exact Yields.compressed.bind fun index h => .pure (narrow_methodParam.mpr h)
  · split
    · exact .pure (narrow_of_leaf rfl trivial)
    · exact .throw _

theorem yields_base : Yields readBase Narrow := by
  refine .after fun kind => ?_
  split_ifs
  · exact yields_leaf kind
  · exact .throw _

theorem yields_within (levels : Nat) : Yields (readWithin levels) Narrow := by
  induction levels with
  | zero => exact .throw _
  | succ levels ih =>
    refine .after fun kind => ?_
    split
    · exact ih.bind fun target h => .pure (narrow_byRef.mpr h)
    · refine yields_base.bind fun base hbase => Yields.compressed.bind fun count hcount =>
        (ih.times count).bind fun args hargs => .pure (narrow_generic.mpr ⟨?_, hbase, hargs.2⟩)
      rwa [hargs.1]
    · exact ih.bind fun element h => .pure (narrow_vector.mpr h)
    · exact yields_leaf kind

theorem yields_read : Yields read Narrow := .after fun _ => yields_within _

theorem yields_counted : Yields readCounted AllNarrow := by
  refine Yields.compressed.bind fun count hcount => (yields_read.times count).mono fun args hargs => ⟨?_, hargs.2⟩
  rwa [hargs.1]

theorem encode_puts (sig : TypeSig) : Puts encode segments read Narrow sig :=
  .of_reads (encode_eq sig) (fun _ => unclamped_segments) (fun _ => reads_encode) yields_read

theorem encodeField_puts (sig : TypeSig) : Puts encodeField segmentsField readField Narrow sig := by
  refine .of_reads ?_ (fun written h => ?_) (encodeField_readBack.reads sig) (.after fun _ => yields_read)
  · simp [encodeField, segmentsField, encode_eq]
  · obtain ⟨inner, hinner, h⟩ := bind_eq_ok.mp h
    cases h
    rw [Segment.unclamped_plain, unclamped_segments hinner]

theorem encodeLocals_puts (types : List TypeSig) : Puts encodeLocals segmentsLocals readLocals AllNarrow types := by
  refine .of_reads ?_ (fun written h => ?_) (encodeLocals_readBack.reads types) (.after fun _ => yields_counted)
  · simp [encodeLocals, segmentsLocals, encodeAll_eq]
  · obtain ⟨all, hall, h⟩ := bind_eq_ok.mp h
    cases h
    rw [Segment.unclamped_plain, Segment.unclamped_number, unclamped_all hall, allNarrow_iff]

theorem encodeMethodInstantiation_puts (args : List TypeSig) :
    Puts encodeMethodInstantiation segmentsMethodInstantiation readMethodInstantiation AllNarrow args := by
  refine .of_reads ?_ (fun written h => ?_) (encodeMethodInstantiation_readBack.reads args)
    (.after fun _ => yields_counted)
  · unfold encodeMethodInstantiation segmentsMethodInstantiation
    split_ifs
    · rfl
    · simp [encodeAll_eq]
  · unfold segmentsMethodInstantiation at h
    split_ifs at h
    · cases h
    · obtain ⟨all, hall, h⟩ := bind_eq_ok.mp h
      cases h
      rw [Segment.unclamped_plain, Segment.unclamped_number, unclamped_all hall, allNarrow_iff]

end TypeSig

namespace MethodSig

variable {sig : MethodSig}

def segments (sig : MethodSig) : Result (List Segment) := do
  let generics := if 0 < sig.genericCount then [.number sig.genericCount] else []
  let returnType ← sig.returnType.segments
  let params ← TypeSig.segmentsAll sig.params
  return .plain [sig.convention] :: generics ++ .number sig.params.length :: returnType ++ params

theorem encode_eq (sig : MethodSig) : sig.encode = Segment.write <$> sig.segments := by
  unfold encode segments
  rw [TypeSig.encode_eq, TypeSig.encodeAll_eq]
  by_cases h : 0 < sig.genericCount <;> simp [h]

theorem unclamped_segments (h : sig.segments = .ok written) : Unclamped written ↔ sig.Narrow := by
  obtain ⟨returnType, hreturn, h⟩ := bind_eq_ok.mp h
  obtain ⟨params, hparams, h⟩ := bind_eq_ok.mp h
  cases h
  have hgenerics : Unclamped (if 0 < sig.genericCount then [.number sig.genericCount] else []) ↔
      sig.genericCount ≤ Bytes.compressedMax := by
    split_ifs with h
    · simp
    · simp [show sig.genericCount = 0 by omega]
  simp only [List.cons_append, List.append_assoc, Segment.unclamped_plain, Segment.unclamped_append,
    Segment.unclamped_number, hgenerics, TypeSig.unclamped_segments hreturn, TypeSig.unclamped_all hparams]
  constructor
  · rintro ⟨hgeneric, hcount, hreturn, hall⟩
    exact ⟨hgeneric, hreturn, hcount, hall⟩
  · intro h
    exact ⟨h.genericCount, h.params.count, h.returnType, h.params.each⟩

theorem yields_read : Yields read Narrow := by
  have hgenerics : ∀ convention, Yields (readGenericCount convention) (· ≤ Bytes.compressedMax) := by
    intro convention
    unfold readGenericCount
    split_ifs
    · exact .compressed
    · exact .pure (Nat.zero_le _)
  refine .after fun convention => (hgenerics convention).bind fun genericCount hgeneric =>
    Yields.compressed.bind fun count hcount => TypeSig.yields_read.bind fun returnType hreturn =>
    (TypeSig.yields_read.times count).bind fun params hparams => .pure ⟨hgeneric, hreturn, ?_, hparams.2⟩
  change params.length ≤ _
  rwa [hparams.1]

theorem encode_puts (sig : MethodSig) : Puts encode segments read Narrow sig :=
  .of_reads sig.encode_eq (fun _ => unclamped_segments) (fun _ => reads_encode) yields_read

end MethodSig
end HotPatch
