import HotPatch.Proofs.Bytes.CompressedReader
import HotPatch.Proofs.Module.Tables
import HotPatch.Proofs.Signature.Encodable
import HotPatch.Proofs.Signature.Parts

/-!
# Reading types

A reader that follows the standard's grammar: the first byte tells the kind of a
type, and the kind tells what stands behind it, so each type ends where its last
part does. Every level of a type takes at least one byte, so a reader that goes
down as many levels as there are bytes is never cut short.
-/

namespace HotPatch

variable {bytes : Bytes}

/-- The built-in type with the given byte. -/
def Primitive.ofCode? (code : Nat) : Option Primitive := all.find? (·.code.toNat == code)

namespace Token

variable {token : Token} {index : Nat}

/-- The token belongs to one of the tables of types. -/
def OfType (token : Token) : Prop :=
  token.table? = some .typeDef ∨ token.table? = some .typeRef ∨ token.table? = some .typeSpec

theorem namesType_iff : token.NamesType ↔ token.OfType := by
  refine ⟨fun ⟨index, h⟩ => ?_, namesType_of_table?⟩
  unfold codedIndex at h
  split at h
  · exact .inl ‹_›
  · exact .inr (.inl ‹_›)
  · exact .inr (.inr ‹_›)
  · cases h

/-- The token that a coded index stands for: the low bits tell the table. -/
def ofCodedIndex? (index : Nat) : Option Token :=
  match index % 4 with
  | 0 => some (.ofRow .typeDef (index / 4))
  | 1 => some (.ofRow .typeRef (index / 4))
  | 2 => some (.ofRow .typeSpec (index / 4))
  | _ => none

theorem eq_ofRow_of_table? {table : Table} (h : token.table? = some table) : token = .ofRow table token.row :=
  eq_ofRow (beq_iff_eq.mpr (Table.code_of_ofCode? h).symm)

theorem row_lt (token : Token) : token.row < rowLimit := Nat.mod_lt _ (by decide)

theorem codedIndex_eq_ok (h : token.codedIndex = .ok index) :
    ofCodedIndex? index = some token ∧ index ≤ Bytes.compressedMax := by
  have hparts : ∀ tag < 4, (token.row * 4 + tag) % 4 = tag ∧ (token.row * 4 + tag) / 4 = token.row ∧
      token.row * 4 + tag ≤ Bytes.compressedMax := by
    have hrow := token.row_lt
    simp only [rowLimit, Bytes.compressedMax] at hrow ⊢
    omega
  unfold codedIndex at h
  unfold ofCodedIndex?
  split at h <;> cases h
  · rename_i htable
    obtain ⟨hmod, hdiv, hsmall⟩ := hparts 0 (by decide)
    rw [← Nat.add_zero (token.row * 4), hmod, hdiv, ← eq_ofRow_of_table? htable]
    exact ⟨rfl, hsmall⟩
  · rename_i htable
    obtain ⟨hmod, hdiv, hsmall⟩ := hparts 1 (by decide)
    rw [hmod, hdiv, ← eq_ofRow_of_table? htable]
    exact ⟨rfl, hsmall⟩
  · rename_i htable
    obtain ⟨hmod, hdiv, hsmall⟩ := hparts 2 (by decide)
    rw [hmod, hdiv, ← eq_ofRow_of_table? htable]
    exact ⟨rfl, hsmall⟩

end Token

namespace TypeSig

variable {sig : TypeSig} {args : List TypeSig} {token : Token}

/-- The token behind a compressed coded index. -/
def readToken : Reader Token := do
  let index ← Reader.compressed
  match Token.ofCodedIndex? index with
  | some token => return token
  | none => throw .outOfBounds

/-- A type without parts, whose kind was read. -/
def readLeaf (kind : Nat) : Reader TypeSig := do
  match kind with
  | 0x11 => return .valueType (← readToken)
  | 0x12 => return .class (← readToken)
  | 0x13 => return .typeParam (← Reader.compressed)
  | 0x1E => return .methodParam (← Reader.compressed)
  | _ =>
    match Primitive.ofCode? kind with
    | some type => return .primitive type
    | none => throw .outOfBounds

/-- The base of an instantiation, which is a named type. -/
def readBase : Reader TypeSig := do
  let kind ← Reader.number 1
  if kind = 0x11 ∨ kind = 0x12 then readLeaf kind else throw .outOfBounds

/-- A type of at most the given number of levels. -/
def readWithin : Nat → Reader TypeSig
  | 0 => throw .outOfBounds
  | levels + 1 => do
    let kind ← Reader.number 1
    match kind with
    | 0x10 => return .byRef (← readWithin levels)
    | 0x15 => do
      let base ← readBase
      let count ← Reader.compressed
      return .generic base (← Reader.times count (readWithin levels))
    | 0x1D => return .vector (← readWithin levels)
    | kind => readLeaf kind

/-- A type, of whatever depth. -/
def read : Reader TypeSig := do readWithin (← get).length

/-- The index or the number of arguments at the root has a compressed form. -/
def NarrowAt : TypeSig → Prop
  | .typeParam index | .methodParam index => index ≤ Bytes.compressedMax
  | .generic _ args => args.length ≤ Bytes.compressedMax
  | _ => True

/-- All indices of parameters and all numbers of arguments have compressed forms. -/
def Narrow (sig : TypeSig) : Prop := Everywhere children NarrowAt sig

theorem narrow_typeParam {index : Nat} : (TypeSig.typeParam index).Narrow ↔ index ≤ Bytes.compressedMax :=
  everywhere_of_leaf rfl

theorem narrow_methodParam {index : Nat} : (TypeSig.methodParam index).Narrow ↔ index ≤ Bytes.compressedMax :=
  everywhere_of_leaf rfl

theorem narrow_generic : (TypeSig.generic sig args).Narrow ↔
    args.length ≤ Bytes.compressedMax ∧ sig.Narrow ∧ ∀ arg ∈ args, arg.Narrow :=
  everywhere_generic

theorem narrow_vector : (TypeSig.vector sig).Narrow ↔ sig.Narrow :=
  everywhere_vector.trans (and_iff_right trivial)

theorem narrow_byRef : (TypeSig.byRef sig).Narrow ↔ sig.Narrow :=
  everywhere_byRef.trans (and_iff_right trivial)

/-- The token at the root names a type, or an instantiation is one of a named type. -/
def ProperAt : TypeSig → Prop
  | .class token | .valueType token => token.OfType
  | .generic base _ => ∃ token, base = .class token ∨ base = .valueType token
  | _ => True

/-- All tokens name types, and all instantiations are of named types. -/
def Proper (sig : TypeSig) : Prop := Everywhere children ProperAt sig

theorem isNamed_iff : sig.isNamed = true ↔ ∃ token, sig = .class token ∨ sig = .valueType token := by
  cases sig <;> simp [isNamed]

/-- Exactly the proper signatures have blobs. -/
theorem encodes_iff : sig.Encodes ↔ sig.Proper := by
  unfold Proper
  induction sig using induct with
  | primitive type => exact iff_of_true (encodes_primitive type) ((everywhere_of_leaf rfl).mpr trivial)
  | typeParam index => exact iff_of_true (encodes_typeParam index) ((everywhere_of_leaf rfl).mpr trivial)
  | methodParam index => exact iff_of_true (encodes_methodParam index) ((everywhere_of_leaf rfl).mpr trivial)
  | named token => rw [encodes_class, Token.namesType_iff, everywhere_of_leaf rfl, ProperAt]
  | valueType token => rw [encodes_valueType, Token.namesType_iff, everywhere_of_leaf rfl, ProperAt]
  | vector element ih =>
    rw [encodes_vector, everywhere_vector, ih]
    exact (and_iff_right trivial).symm
  | byRef target ih =>
    rw [encodes_byRef, everywhere_byRef, ih]
    exact (and_iff_right trivial).symm
  | generic base args ihbase ihargs =>
    rw [encodes_generic, everywhere_generic, ProperAt, isNamed_iff, ihbase]
    exact and_congr_right' (and_congr_right' (forall₂_congr ihargs))

/-- The encodings of a list stand one behind the other. -/
theorem encodeAll_eq_mapM : encodeAll args = return (← args.mapM encode).flatten := by
  induction args with
  | nil => rfl
  | cons arg args ih =>
    rw [encodeAll, List.mapM_cons, ih]
    simp only [bind_assoc, pure_bind, List.flatten_cons]

theorem reads_token {index : Nat} (h : token.codedIndex = .ok index) :
    Reads readToken (Bytes.compressed index) token := by
  obtain ⟨hback, hsmall⟩ := Token.codedIndex_eq_ok h
  apply (Reads.compressed hsmall).map
  rw [hback]
  exact Reads.pure token

theorem reads_base (hnamed : sig.isNamed = true) (h : sig.encode = .ok bytes) : Reads readBase bytes sig := by
  cases sig with
  | «class» token =>
    rw [encode] at h
    obtain ⟨index, hindex, h⟩ := bind_eq_ok.mp h
    cases h
    exact (Reads.byte (by decide : 0x12 < 256)).bind ((reads_token hindex).map (Reads.pure _))
  | valueType token =>
    rw [encode] at h
    obtain ⟨index, hindex, h⟩ := bind_eq_ok.mp h
    cases h
    exact (Reads.byte (by decide : 0x11 < 256)).bind ((reads_token hindex).map (Reads.pure _))
  | _ => cases hnamed

/-- Arguments are read back if each of them is, by as many levels as there are bytes. -/
theorem reads_args {levels : Nat} (h : encodeAll args = .ok bytes) (hlevels : bytes.length ≤ levels)
    (hreads : ∀ arg ∈ args, ∀ more piece, arg.encode = .ok piece →
      Reads (readWithin (more + piece.length)) piece arg) :
    Reads (Reader.times args.length (readWithin levels)) bytes args := by
  rw [encodeAll_eq_mapM] at h
  obtain ⟨pieces, hpieces, h⟩ := bind_eq_ok.mp h
  cases h
  refine Reads.times_mapM hpieces fun arg ha piece hp hpiece => ?_
  obtain ⟨more, rfl⟩ := Nat.exists_eq_add_of_le' ((List.sublist_flatten_of_mem hp).length_le.trans hlevels)
  exact hreads arg ha more piece hpiece

/-- A type is read back by as many levels as its encoding has bytes, or more. -/
theorem reads_within (levels : Nat) (hnarrow : sig.Narrow) (h : sig.encode = .ok bytes) :
    Reads (readWithin (levels + bytes.length)) bytes sig := by
  induction sig using induct generalizing bytes levels with
  | primitive type =>
    rw [encode] at h
    cases h
    cases type <;> exact (Reads.byte (by decide)).bind (Reads.pure _)
  | named token =>
    rw [encode] at h
    obtain ⟨index, hindex, h⟩ := bind_eq_ok.mp h
    cases h
    exact (Reads.byte (by decide)).bind ((reads_token hindex).map (Reads.pure _))
  | valueType token =>
    rw [encode] at h
    obtain ⟨index, hindex, h⟩ := bind_eq_ok.mp h
    cases h
    exact (Reads.byte (by decide)).bind ((reads_token hindex).map (Reads.pure _))
  | typeParam index =>
    rw [encode] at h
    cases h
    exact (Reads.byte (by decide)).bind ((Reads.compressed (narrow_typeParam.mp hnarrow)).map (Reads.pure _))
  | methodParam index =>
    rw [encode] at h
    cases h
    exact (Reads.byte (by decide)).bind ((Reads.compressed (narrow_methodParam.mp hnarrow)).map (Reads.pure _))
  | vector element ih =>
    rw [encode] at h
    obtain ⟨inner, hinner, h⟩ := bind_eq_ok.mp h
    cases h
    exact (Reads.byte (by decide)).bind ((ih levels (narrow_vector.mp hnarrow) hinner).map (Reads.pure _))
  | byRef target ih =>
    rw [encode] at h
    obtain ⟨inner, hinner, h⟩ := bind_eq_ok.mp h
    cases h
    exact (Reads.byte (by decide)).bind ((ih levels (narrow_byRef.mp hnarrow) hinner).map (Reads.pure _))
  | generic base args ihbase ihargs =>
    rw [encode] at h
    split_ifs at h with hnamed
    · obtain ⟨head, hhead, h⟩ := bind_eq_ok.mp h
      obtain ⟨all, hall, h⟩ := bind_eq_ok.mp h
      cases h
      obtain ⟨hcount, -, hargs⟩ := narrow_generic.mp hnarrow
      rw [List.append_assoc, List.cons_append]
      refine (Reads.byte (by decide)).bind ((reads_base hnamed hhead).bind
        ((Reads.compressed hcount).bind ((reads_args hall ?_ fun arg ha more piece hpiece => ?_).map (Reads.pure _))))
      -- the arguments stand in what is left behind the kind, so the levels below are enough for them
      · change all.length ≤ levels + (head ++ (Bytes.compressed args.length ++ all)).length
        simp only [List.length_append]
        omega
      · exact ihargs arg ha more (hargs arg ha) hpiece
    · cases h

/-- A type is read back from its encoding, whatever follows. -/
theorem reads_encode (hnarrow : sig.Narrow) (h : sig.encode = .ok bytes) : Reads read bytes sig := by
  apply Reads.look
  intro rest
  rw [List.length_append, Nat.add_comm]
  exact reads_within rest.length hnarrow h

end TypeSig
end HotPatch
