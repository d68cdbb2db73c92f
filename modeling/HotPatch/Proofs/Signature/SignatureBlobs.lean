import HotPatch.Proofs.Signature.TypeReader

/-!
# Reading signature blobs

A blob is read by the reader of its kind, which the column that refers to it
tells: a type alone, a field's type, a list of local variables, the arguments of
an instantiated method, or the signature of a method. All of them are headers and
counts in front of types, so they are read back as types are.
-/

namespace HotPatch

variable {bytes : Bytes}

namespace TypeSig

variable {sig : TypeSig} {args : List TypeSig}

/-- As many types as the count in front says. -/
def readCounted : Reader (List TypeSig) := do
  let count ← Reader.compressed
  Reader.times count read

def readField : Reader TypeSig := do
  Reader.tag 0x06
  read

def readLocals : Reader (List TypeSig) := do
  Reader.tag 0x07
  readCounted

def readMethodInstantiation : Reader (List TypeSig) := do
  Reader.tag 0x0A
  readCounted

/-- The number of types has a compressed form, and so have all indices and numbers in them. -/
structure AllNarrow (args : List TypeSig) : Prop where
  count : args.length ≤ Bytes.compressedMax
  each : ∀ arg ∈ args, arg.Narrow

def AllProper (args : List TypeSig) : Prop := ∀ arg ∈ args, arg.Proper

theorem forall_encodes_iff : (∀ arg ∈ args, arg.Encodes) ↔ AllProper args := forall₂_congr fun _ _ => encodes_iff

/-- Types that stand one behind the other are read back. -/
theorem reads_encodeAll (hnarrow : ∀ arg ∈ args, arg.Narrow) (h : encodeAll args = .ok bytes) :
    Reads (Reader.times args.length read) bytes args := by
  rw [encodeAll_eq_mapM] at h
  obtain ⟨pieces, hpieces, h⟩ := bind_eq_ok.mp h
  cases h
  exact Reads.times_mapM hpieces fun arg ha piece _ hpiece => reads_encode (hnarrow arg ha) hpiece

theorem reads_counted (hnarrow : AllNarrow args) (h : encodeAll args = .ok bytes) :
    Reads readCounted (Bytes.compressed args.length ++ bytes) args :=
  (Reads.compressed hnarrow.count).bind (reads_encodeAll hnarrow.each h)

theorem encode_readBack : ReadBack encode read Narrow Proper :=
  .of_reads (fun _ => encodes_iff) fun _ _ => reads_encode

theorem encodeField_readBack : ReadBack encodeField readField Narrow Proper := by
  refine .of_reads (fun type => exists_encodeField.trans encodes_iff) fun type blob hnarrow h => ?_
  obtain ⟨bytes, hbytes, h⟩ := bind_eq_ok.mp h
  cases h
  exact (Reads.tag (by decide)).bind (reads_encode hnarrow hbytes)

theorem encodeLocals_readBack : ReadBack encodeLocals readLocals AllNarrow AllProper := by
  refine .of_reads (fun types => exists_encodeLocals.trans forall_encodes_iff) fun types blob hnarrow h => ?_
  obtain ⟨bytes, hbytes, h⟩ := bind_eq_ok.mp h
  cases h
  exact (Reads.tag (by decide)).bind (reads_counted hnarrow hbytes)

theorem encodeMethodInstantiation_readBack : ReadBack encodeMethodInstantiation readMethodInstantiation AllNarrow
    fun args => args ≠ [] ∧ AllProper args := by
  refine .of_reads (fun args => exists_encodeMethodInstantiation.trans (and_congr_right' forall_encodes_iff))
    fun args blob hnarrow h => ?_
  unfold encodeMethodInstantiation at h
  split_ifs at h
  · cases h
  · obtain ⟨bytes, hbytes, h⟩ := bind_eq_ok.mp h
    cases h
    exact (Reads.tag (by decide)).bind (reads_counted hnarrow hbytes)

end TypeSig

namespace MethodSig

variable {sig : MethodSig}

/-- The number of generic parameters, which stands only where the header says so. -/
def readGenericCount (convention : Nat) : Reader Nat :=
  if convention.testBit 4 then Reader.compressed else return 0

/-- The header tells whether there is a receiver and whether a number of generic parameters follows. -/
def read : Reader MethodSig := do
  let convention ← Reader.number 1
  let genericCount ← readGenericCount convention
  let count ← Reader.compressed
  let returnType ← TypeSig.read
  let params ← Reader.times count TypeSig.read
  return { hasThis := convention.testBit 5, genericCount, returnType, params }

/-- All indices, numbers of arguments, parameters and generic parameters have compressed forms. -/
structure Narrow (sig : MethodSig) : Prop where
  genericCount : sig.genericCount ≤ Bytes.compressedMax
  returnType : sig.returnType.Narrow
  params : TypeSig.AllNarrow sig.params

structure Proper (sig : MethodSig) : Prop where
  returnType : sig.returnType.Proper
  params : TypeSig.AllProper sig.params

theorem encodes_iff : sig.Encodes ↔ sig.Proper := by
  constructor
  · rintro ⟨hreturn, hparams⟩
    exact ⟨TypeSig.encodes_iff.mp hreturn, TypeSig.forall_encodes_iff.mp hparams⟩
  · rintro ⟨hreturn, hparams⟩
    exact ⟨TypeSig.encodes_iff.mpr hreturn, TypeSig.forall_encodes_iff.mpr hparams⟩

/-- The two bits of the header. -/
theorem testBit_convention (sig : MethodSig) : sig.convention.toNat.testBit 4 = decide (0 < sig.genericCount) ∧
    sig.convention.toNat.testBit 5 = sig.hasThis := by
  unfold convention
  cases sig.hasThis <;> by_cases h : 0 < sig.genericCount <;> simp only [h, if_true, if_false] <;> decide

theorem reads_genericCount (h : sig.genericCount ≤ Bytes.compressedMax) :
    Reads (readGenericCount sig.convention.toNat)
      (if 0 < sig.genericCount then Bytes.compressed sig.genericCount else []) sig.genericCount := by
  rw [readGenericCount, (testBit_convention sig).1]
  by_cases hpos : 0 < sig.genericCount
  · rw [if_pos (decide_eq_true hpos), if_pos hpos]
    exact Reads.compressed h
  · rw [if_neg (by simpa using hpos), if_neg hpos, show sig.genericCount = 0 by omega]
    exact Reads.pure 0

theorem reads_encode (hnarrow : sig.Narrow) (h : sig.encode = .ok bytes) : Reads read bytes sig := by
  obtain ⟨returnType, hreturn, h⟩ := bind_eq_ok.mp h
  obtain ⟨params, hparams, h⟩ := bind_eq_ok.mp h
  cases h
  have hconvention : Reads (Reader.number 1) [sig.convention] sig.convention.toNat := by
    rw [← Bytes.littleEndian_one]
    exact Reads.number sig.convention.toNat_lt
  rw [List.append_assoc, List.append_assoc, List.cons_append]
  apply hconvention.bind
  apply (reads_genericCount hnarrow.genericCount).bind
  apply (Reads.compressed hnarrow.params.count).bind
  apply (TypeSig.reads_encode hnarrow.returnType hreturn).bind
  apply (TypeSig.reads_encodeAll hnarrow.params.each hparams).map
  rw [(testBit_convention sig).2]
  exact Reads.pure sig

theorem encode_readBack : ReadBack encode read Narrow Proper :=
  .of_reads (fun _ => exists_encode.trans encodes_iff) fun _ _ => reads_encode

end MethodSig

/-- Every kind of signature is read back from its blobs, and within a kind no two signatures share one. A type,
which is also the whole blob of a type specification, has a blob exactly if its tokens name types and its
instantiations are of named types, and the other kinds exactly if their types have; an instantiation of a method
needs an argument as well. -/
theorem signatures_read_back :
    ReadBack TypeSig.encode TypeSig.read TypeSig.Narrow TypeSig.Proper ∧
    ReadBack TypeSig.encodeField TypeSig.readField TypeSig.Narrow TypeSig.Proper ∧
    ReadBack TypeSig.encodeLocals TypeSig.readLocals TypeSig.AllNarrow TypeSig.AllProper ∧
    ReadBack TypeSig.encodeMethodInstantiation TypeSig.readMethodInstantiation TypeSig.AllNarrow
      (fun args => args ≠ [] ∧ TypeSig.AllProper args) ∧
    ReadBack MethodSig.encode MethodSig.read MethodSig.Narrow MethodSig.Proper :=
  ⟨TypeSig.encode_readBack, TypeSig.encodeField_readBack, TypeSig.encodeLocals_readBack,
    TypeSig.encodeMethodInstantiation_readBack, MethodSig.encode_readBack⟩

/-- A generic instance method over instantiations inside instantiations, with indices of two widths. -/
def nestedSig : MethodSig where
  hasThis := true
  genericCount := 1
  returnType := .generic (.class ⟨0x01000001⟩)
    [.vector (.methodParam 0), .generic (.valueType ⟨0x02000002⟩) [.typeParam 300, .primitive .string]]
  params := [.byRef (.class ⟨0x1B000003⟩), .primitive .i4]

theorem signatures_read_back_nestedSig : nestedSig.Narrow ∧ nestedSig.Proper ∧
    ∃ blob, nestedSig.encode = .ok blob ∧ Reads MethodSig.read blob nestedSig := by
  have hnarrow : nestedSig.Narrow := by
    have leaf : ∀ sig : TypeSig, sig.children = [] → sig.NarrowAt → sig.Narrow :=
      fun sig h => (everywhere_of_leaf h).mpr
    have hpair : 2 ≤ Bytes.compressedMax := by decide
    have hreturn : nestedSig.returnType.Narrow := by
      simp only [nestedSig, TypeSig.narrow_generic, TypeSig.narrow_vector, List.forall_mem_cons]
      exact ⟨hpair, leaf _ rfl trivial, leaf _ rfl (Nat.zero_le _), ⟨hpair, leaf _ rfl trivial,
        leaf _ rfl (show 300 ≤ Bytes.compressedMax by decide), leaf _ rfl trivial, List.forall_mem_nil _⟩,
        List.forall_mem_nil _⟩
    have hparams : ∀ param ∈ nestedSig.params, param.Narrow := by
      simp only [nestedSig, TypeSig.narrow_byRef, List.forall_mem_cons]
      exact ⟨leaf _ rfl trivial, leaf _ rfl trivial, List.forall_mem_nil _⟩
    exact ⟨by decide, hreturn, by decide, hparams⟩
  obtain ⟨-, -, -, -, hmethod⟩ := signatures_read_back
  obtain ⟨blob, h⟩ : ∃ blob, nestedSig.encode = .ok blob := ⟨_, rfl⟩
  exact ⟨hnarrow, (hmethod.succeeds _ hnarrow).mp ⟨blob, h⟩, blob, h, hmethod.reads _ _ hnarrow h⟩

end HotPatch
