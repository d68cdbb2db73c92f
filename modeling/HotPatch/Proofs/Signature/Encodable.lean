import HotPatch.Proofs.Results
import HotPatch.Signature.Encode
import HotPatch.Signature.Substitute

/-!
# Signatures that can be encoded

A type can be encoded if its tokens name types and its instantiations are of
named types. Substituting types that can be encoded keeps it so, since only
parameters are replaced and these are never the base of an instantiation.
-/

namespace HotPatch

/-- The token can stand for a type in a signature. -/
def Token.NamesType (token : Token) : Prop := ∃ index, token.codedIndex = .ok index

theorem Token.namesType_of_table? {token : Token} (h : token.table? = some .typeDef ∨
    token.table? = some .typeRef ∨ token.table? = some .typeSpec) : token.NamesType := by
  unfold NamesType codedIndex
  rcases h with h | h | h <;> rw [h]
  · exact ⟨_, rfl⟩
  · exact ⟨_, rfl⟩
  · exact ⟨_, rfl⟩

namespace TypeSig

variable {sig sig' : TypeSig} {token : Token} {args args' typeArgs methodArgs : List TypeSig}

/-- The type has a blob. -/
def Encodes (sig : TypeSig) : Prop := ∃ bytes, sig.encode = .ok bytes

theorem encodes_primitive (type : Primitive) : (TypeSig.primitive type).Encodes := ⟨_, rfl⟩

theorem encodes_typeParam (index : Nat) : (TypeSig.typeParam index).Encodes := ⟨_, rfl⟩

theorem encodes_methodParam (index : Nat) : (TypeSig.methodParam index).Encodes := ⟨_, rfl⟩

theorem encodes_class : (TypeSig.class token).Encodes ↔ token.NamesType := by
  unfold Encodes Token.NamesType encode
  exact ⟨fun ⟨_, h⟩ => (bind_eq_ok.mp h).imp fun _ h => h.1,
    fun ⟨index, h⟩ => ⟨_, bind_eq_ok.mpr ⟨index, h, rfl⟩⟩⟩

theorem encodes_valueType : (TypeSig.valueType token).Encodes ↔ token.NamesType := by
  unfold Encodes Token.NamesType encode
  exact ⟨fun ⟨_, h⟩ => (bind_eq_ok.mp h).imp fun _ h => h.1,
    fun ⟨index, h⟩ => ⟨_, bind_eq_ok.mpr ⟨index, h, rfl⟩⟩⟩

theorem encodes_vector : (TypeSig.vector sig).Encodes ↔ sig.Encodes := by
  unfold Encodes
  rw [encode]
  exact ⟨fun ⟨_, h⟩ => (bind_eq_ok.mp h).imp fun _ h => h.1,
    fun ⟨bytes, h⟩ => ⟨_, bind_eq_ok.mpr ⟨bytes, h, rfl⟩⟩⟩

theorem encodes_byRef : (TypeSig.byRef sig).Encodes ↔ sig.Encodes := by
  unfold Encodes
  rw [encode]
  exact ⟨fun ⟨_, h⟩ => (bind_eq_ok.mp h).imp fun _ h => h.1,
    fun ⟨bytes, h⟩ => ⟨_, bind_eq_ok.mpr ⟨bytes, h, rfl⟩⟩⟩

theorem exists_encodeAll : (∃ bytes, encodeAll args = .ok bytes) ↔ ∀ arg ∈ args, arg.Encodes := by
  induction args with
  | nil => simp [encodeAll]
  | cons arg args ih =>
    rw [List.forall_mem_cons, ← ih, encodeAll]
    constructor
    · rintro ⟨bytes, h⟩
      obtain ⟨head, hh, h⟩ := bind_eq_ok.mp h
      obtain ⟨rest, hr, -⟩ := bind_eq_ok.mp h
      exact ⟨⟨head, hh⟩, rest, hr⟩
    · rintro ⟨⟨head, hh⟩, rest, hr⟩
      exact ⟨_, bind_eq_ok.mpr ⟨head, hh, bind_eq_ok.mpr ⟨rest, hr, rfl⟩⟩⟩

theorem encodes_generic : (TypeSig.generic sig args).Encodes ↔
    sig.isNamed ∧ sig.Encodes ∧ ∀ arg ∈ args, arg.Encodes := by
  rw [← exists_encodeAll]
  unfold Encodes
  rw [encode]
  split_ifs with hn
  · constructor
    · rintro ⟨bytes, h⟩
      obtain ⟨head, hh, h⟩ := bind_eq_ok.mp h
      obtain ⟨rest, hr, -⟩ := bind_eq_ok.mp h
      exact ⟨hn, ⟨head, hh⟩, rest, hr⟩
    · rintro ⟨-, ⟨head, hh⟩, rest, hr⟩
      exact ⟨_, bind_eq_ok.mpr ⟨head, hh, bind_eq_ok.mpr ⟨rest, hr, rfl⟩⟩⟩
  · simp [hn, malformed]

theorem exists_encodeField : (∃ bytes, sig.encodeField = .ok bytes) ↔ sig.Encodes :=
  ⟨fun ⟨_, h⟩ => (bind_eq_ok.mp h).imp fun _ h => h.1,
    fun ⟨bytes, h⟩ => ⟨_, bind_eq_ok.mpr ⟨bytes, h, rfl⟩⟩⟩

theorem exists_encodeLocals : (∃ bytes, encodeLocals args = .ok bytes) ↔ ∀ arg ∈ args, arg.Encodes := by
  rw [← exists_encodeAll]
  exact ⟨fun ⟨_, h⟩ => (bind_eq_ok.mp h).imp fun _ h => h.1,
    fun ⟨bytes, h⟩ => ⟨_, bind_eq_ok.mpr ⟨bytes, h, rfl⟩⟩⟩

theorem exists_encodeMethodInstantiation :
    (∃ bytes, encodeMethodInstantiation args = .ok bytes) ↔ args ≠ [] ∧ ∀ arg ∈ args, arg.Encodes := by
  rw [← exists_encodeAll]
  unfold encodeMethodInstantiation
  split_ifs with he
  · rw [List.isEmpty_iff] at he
    simp [he, malformed]
  · rw [List.isEmpty_iff] at he
    exact ⟨fun ⟨_, h⟩ => ⟨he, (bind_eq_ok.mp h).imp fun _ h => h.1⟩,
      fun ⟨_, bytes, h⟩ => ⟨_, bind_eq_ok.mpr ⟨bytes, h, rfl⟩⟩⟩

/-- A named type has no parameters. -/
theorem substitute_of_isNamed (hn : sig.isNamed) (h : sig.substitute typeArgs methodArgs = .ok sig') :
    sig' = sig := by
  cases sig with
  | «class» token =>
    cases h
    rfl
  | valueType token =>
    cases h
    rfl
  | _ => cases hn

theorem mem_of_argument {index : Nat} {cause : OpenCause} (h : argument args index cause = .ok sig) :
    sig ∈ args := by
  unfold argument at h
  split at h
  · rename_i arg ha
    cases h
    exact List.mem_of_getElem? ha
  · cases h

mutual

theorem Encodes.substitute (hargs : ∀ arg ∈ typeArgs ++ methodArgs, arg.Encodes) :
    ∀ {sig sig' : TypeSig}, sig.Encodes → sig.substitute typeArgs methodArgs = .ok sig' → sig'.Encodes
  | .primitive _, _, he, h => by
    cases h
    exact he
  | .class _, _, he, h => by
    cases h
    exact he
  | .valueType _, _, he, h => by
    cases h
    exact he
  | .typeParam _, _, _, h => hargs _ (List.mem_append_left _ (mem_of_argument h))
  | .methodParam _, _, _, h => hargs _ (List.mem_append_right _ (mem_of_argument h))
  | .generic base args, _, he, h => by
    obtain ⟨hn, hb, ha⟩ := encodes_generic.mp he
    rw [TypeSig.substitute] at h
    obtain ⟨base', hbase, h⟩ := bind_eq_ok.mp h
    obtain ⟨args', hall, h⟩ := bind_eq_ok.mp h
    cases h
    rw [substitute_of_isNamed hn hbase]
    exact encodes_generic.mpr ⟨hn, hb, encodes_substituteAll hargs ha hall⟩
  | .vector element, _, he, h => by
    rw [TypeSig.substitute] at h
    obtain ⟨element', hs, h⟩ := bind_eq_ok.mp h
    cases h
    exact encodes_vector.mpr (Encodes.substitute hargs (encodes_vector.mp he) hs)
  | .byRef target, _, he, h => by
    rw [TypeSig.substitute] at h
    obtain ⟨target', hs, h⟩ := bind_eq_ok.mp h
    cases h
    exact encodes_byRef.mpr (Encodes.substitute hargs (encodes_byRef.mp he) hs)

theorem encodes_substituteAll (hargs : ∀ arg ∈ typeArgs ++ methodArgs, arg.Encodes) :
    ∀ {args args' : List TypeSig}, (∀ arg ∈ args, arg.Encodes) →
      substituteAll typeArgs methodArgs args = .ok args' → ∀ arg ∈ args', arg.Encodes
  | [], _, _, h => by
    cases h
    simp
  | arg :: args, _, ha, h => by
    rw [substituteAll] at h
    obtain ⟨arg', hs, h⟩ := bind_eq_ok.mp h
    obtain ⟨args', hall, h⟩ := bind_eq_ok.mp h
    cases h
    rw [List.forall_mem_cons] at ha ⊢
    exact ⟨Encodes.substitute hargs ha.1 hs, encodes_substituteAll hargs ha.2 hall⟩

end

/-- With arguments for values, what returns a value still does, and what returns none does not. -/
theorem isVoid_substitute (hargs : ∀ arg ∈ typeArgs ++ methodArgs, arg.isVoid = false)
    (h : sig.substitute typeArgs methodArgs = .ok sig') : sig'.isVoid = sig.isVoid := by
  cases sig with
  | primitive type | «class» token | valueType token =>
    cases h
    rfl
  | typeParam index => exact hargs _ (List.mem_append_left _ (mem_of_argument h))
  | methodParam index => exact hargs _ (List.mem_append_right _ (mem_of_argument h))
  | generic base args =>
    rw [TypeSig.substitute] at h
    obtain ⟨base', -, h⟩ := bind_eq_ok.mp h
    obtain ⟨args', -, h⟩ := bind_eq_ok.mp h
    cases h
    rfl
  | vector element | byRef target =>
    rw [TypeSig.substitute] at h
    obtain ⟨inner, -, h⟩ := bind_eq_ok.mp h
    cases h
    rfl

end TypeSig

namespace MethodSig

variable {sig sig' : MethodSig} {typeArgs methodArgs : List TypeSig}

/-- The result and the parameters have blobs. -/
structure Encodes (sig : MethodSig) : Prop where
  returnType : sig.returnType.Encodes
  params : ∀ param ∈ sig.params, param.Encodes

theorem exists_encode : (∃ bytes, sig.encode = .ok bytes) ↔ sig.Encodes := by
  constructor
  · rintro ⟨bytes, h⟩
    obtain ⟨returnType, hr, h⟩ := bind_eq_ok.mp h
    obtain ⟨params, hp, -⟩ := bind_eq_ok.mp h
    exact ⟨⟨returnType, hr⟩, TypeSig.exists_encodeAll.mp ⟨params, hp⟩⟩
  · rintro ⟨⟨returnType, hr⟩, hp⟩
    obtain ⟨params, hp⟩ := TypeSig.exists_encodeAll.mpr hp
    exact ⟨_, bind_eq_ok.mpr ⟨returnType, hr, bind_eq_ok.mpr ⟨params, hp, rfl⟩⟩⟩

theorem Encodes.substitute (hargs : ∀ arg ∈ typeArgs ++ methodArgs, arg.Encodes) (he : sig.Encodes)
    (h : sig.substitute typeArgs methodArgs = .ok sig') : sig'.Encodes := by
  obtain ⟨returnType, hr, h⟩ := bind_eq_ok.mp h
  obtain ⟨params, hp, h⟩ := bind_eq_ok.mp h
  cases h
  exact ⟨TypeSig.Encodes.substitute hargs he.returnType hr, TypeSig.encodes_substituteAll hargs he.params hp⟩

theorem isVoid_substitute (hargs : ∀ arg ∈ typeArgs ++ methodArgs, arg.isVoid = false)
    (h : sig.substitute typeArgs methodArgs = .ok sig') : sig'.returnType.isVoid = sig.returnType.isVoid := by
  obtain ⟨returnType, hr, h⟩ := bind_eq_ok.mp h
  obtain ⟨params, -, h⟩ := bind_eq_ok.mp h
  cases h
  exact TypeSig.isVoid_substitute hargs hr

end MethodSig
end HotPatch
