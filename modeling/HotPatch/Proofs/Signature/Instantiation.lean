import HotPatch.Proofs.Results
import HotPatch.Proofs.Signature.Parts
import HotPatch.Signature.Substitute

/-!
# Instantiated signatures

The substitution of generic arguments fails exactly if a parameter occurs that
has no argument. Otherwise it puts the arguments in the place of the parameters,
which is a total function on signatures.
-/

namespace HotPatch

variable {typeArgs methodArgs : List TypeSig}

namespace TypeSig

section Instantiate

variable (typeArgs methodArgs : List TypeSig)

mutual

/-- The arguments stand in the place of the parameters. A parameter without an argument stays. -/
def instantiate : TypeSig → TypeSig
  | .primitive type => .primitive type
  | .class token => .class token
  | .valueType token => .valueType token
  | .typeParam index => typeArgs[index]?.getD (.typeParam index)
  | .methodParam index => methodArgs[index]?.getD (.methodParam index)
  | .generic base args => .generic (instantiate base) (instantiateAll args)
  | .vector element => .vector (instantiate element)
  | .byRef target => .byRef (instantiate target)

def instantiateAll : List TypeSig → List TypeSig
  | [] => []
  | arg :: args => instantiate arg :: instantiateAll args

end

/-- A parameter has an argument. -/
def CoveredAt : TypeSig → Prop
  | .typeParam index => index < typeArgs.length
  | .methodParam index => index < methodArgs.length
  | _ => True

/-- All parameters that occur have arguments. -/
def Covered : TypeSig → Prop := Everywhere children (CoveredAt typeArgs methodArgs)

theorem instantiateAll_eq_map (args : List TypeSig) :
    instantiateAll typeArgs methodArgs args = args.map (instantiate typeArgs methodArgs) := by
  induction args with
  | nil => rfl
  | cons arg args ih => rw [instantiateAll, ih, List.map_cons]

theorem substituteAll_eq_mapM (args : List TypeSig) :
    substituteAll typeArgs methodArgs args = args.mapM (substitute typeArgs methodArgs) := by
  induction args with
  | nil => rfl
  | cons arg args ih => rw [substituteAll, ih, List.mapM_cons]

end Instantiate

theorem covered_generic {base : TypeSig} {args : List TypeSig} :
    (TypeSig.generic base args).Covered typeArgs methodArgs ↔
      base.Covered typeArgs methodArgs ∧ ∀ arg ∈ args, arg.Covered typeArgs methodArgs :=
  everywhere_generic.trans (and_iff_right trivial)

theorem covered_vector {element : TypeSig} :
    (TypeSig.vector element).Covered typeArgs methodArgs ↔ element.Covered typeArgs methodArgs :=
  everywhere_vector.trans (and_iff_right trivial)

theorem covered_byRef {target : TypeSig} :
    (TypeSig.byRef target).Covered typeArgs methodArgs ↔ target.Covered typeArgs methodArgs :=
  everywhere_byRef.trans (and_iff_right trivial)

theorem argument_eq_ok {args : List TypeSig} {index : Nat} {cause : OpenCause} {default arg : TypeSig} :
    argument args index cause = .ok arg ↔ index < args.length ∧ arg = args[index]?.getD default := by
  unfold argument
  split
  · rename_i found hfound
    have hlt := (List.getElem?_eq_some_iff.mp hfound).1
    rw [hfound, Option.getD_some, Except.ok.injEq]
    exact ⟨fun h => ⟨hlt, h.symm⟩, fun h => h.2.symm⟩
  · rename_i hnone
    rw [List.getElem?_eq_none_iff] at hnone
    simp [hnone]

/-- Substitution succeeds exactly if all parameters have arguments, and then instantiates. -/
theorem substitute_eq_ok {sig sig' : TypeSig} : sig.substitute typeArgs methodArgs = .ok sig' ↔
    sig.Covered typeArgs methodArgs ∧ sig' = sig.instantiate typeArgs methodArgs := by
  have leaf : ∀ sig : TypeSig, sig.children = [] →
      (sig.Covered typeArgs methodArgs ↔ sig.CoveredAt typeArgs methodArgs) := fun sig => everywhere_of_leaf
  have wrapped : ∀ {inner sig' : TypeSig} {wrap : TypeSig → TypeSig}, (∀ {inner'},
      inner.substitute typeArgs methodArgs = .ok inner' ↔
        inner.Covered typeArgs methodArgs ∧ inner' = inner.instantiate typeArgs methodArgs) →
      ((do return wrap (← inner.substitute typeArgs methodArgs)) = (.ok sig' : Result TypeSig) ↔
        inner.Covered typeArgs methodArgs ∧ sig' = wrap (inner.instantiate typeArgs methodArgs)) := by
    intro inner sig' wrap ih
    rw [bind_eq_ok]
    constructor
    · rintro ⟨inner', hinner, h⟩
      obtain ⟨hcovered, rfl⟩ := ih.mp hinner
      cases h
      exact ⟨hcovered, rfl⟩
    · rintro ⟨hcovered, rfl⟩
      exact ⟨_, ih.mpr ⟨hcovered, rfl⟩, rfl⟩
  induction sig using TypeSig.induct generalizing sig' with
  | primitive | named | valueType =>
    rw [leaf _ rfl, substitute, instantiate, Except.ok.injEq, eq_comm]
    exact (and_iff_right trivial).symm
  | typeParam index =>
    rw [leaf _ rfl, substitute, instantiate]
    exact argument_eq_ok
  | methodParam index =>
    rw [leaf _ rfl, substitute, instantiate]
    exact argument_eq_ok
  | generic base args ihbase ihargs =>
    have hargs : ∀ {args'}, substituteAll typeArgs methodArgs args = .ok args' ↔
        (∀ arg ∈ args, arg.Covered typeArgs methodArgs) ∧ args' = args.map (instantiate typeArgs methodArgs) := by
      rw [substituteAll_eq_mapM]
      exact mapM_eq_ok_map fun arg ha arg' => ihargs arg ha
    rw [covered_generic, substitute, instantiate, instantiateAll_eq_map, bind_eq_ok]
    constructor
    · rintro ⟨base', hbase, h⟩
      obtain ⟨args', hall, h⟩ := bind_eq_ok.mp h
      obtain ⟨hcovered, rfl⟩ := ihbase.mp hbase
      obtain ⟨hcovers, rfl⟩ := hargs.mp hall
      cases h
      exact ⟨⟨hcovered, hcovers⟩, rfl⟩
    · rintro ⟨⟨hcovered, hcovers⟩, rfl⟩
      exact ⟨_, ihbase.mpr ⟨hcovered, rfl⟩, bind_eq_ok.mpr ⟨_, hargs.mpr ⟨hcovers, rfl⟩, rfl⟩⟩
  | vector element ih =>
    rw [covered_vector, substitute, instantiate]
    exact wrapped ih
  | byRef target ih =>
    rw [covered_byRef, substitute, instantiate]
    exact wrapped ih

end TypeSig

namespace MethodSig

/-- The types that a signature lists. -/
def types (sig : MethodSig) : List TypeSig := sig.returnType :: sig.params

/-- All parameters that occur in the signature have arguments. -/
structure Covered (typeArgs methodArgs : List TypeSig) (sig : MethodSig) : Prop where
  returnType : sig.returnType.Covered typeArgs methodArgs
  params : ∀ param ∈ sig.params, param.Covered typeArgs methodArgs

/-- The signature with arguments for its parameters has none of its own. -/
def instantiate (typeArgs methodArgs : List TypeSig) (sig : MethodSig) : MethodSig where
  hasThis := sig.hasThis
  returnType := sig.returnType.instantiate typeArgs methodArgs
  params := sig.params.map (·.instantiate typeArgs methodArgs)

theorem substitute_eq_ok {sig sig' : MethodSig} : sig.substitute typeArgs methodArgs = .ok sig' ↔
    sig.Covered typeArgs methodArgs ∧ sig' = sig.instantiate typeArgs methodArgs := by
  have hparams : ∀ {params'}, TypeSig.substituteAll typeArgs methodArgs sig.params = .ok params' ↔
      (∀ param ∈ sig.params, param.Covered typeArgs methodArgs) ∧
        params' = sig.params.map (·.instantiate typeArgs methodArgs) := by
    rw [TypeSig.substituteAll_eq_mapM]
    exact mapM_eq_ok_map fun param _ param' => TypeSig.substitute_eq_ok
  rw [substitute, bind_eq_ok]
  constructor
  · rintro ⟨returnType', hreturn, h⟩
    obtain ⟨params', hall, h⟩ := bind_eq_ok.mp h
    obtain ⟨hcovered, rfl⟩ := TypeSig.substitute_eq_ok.mp hreturn
    obtain ⟨hcovers, rfl⟩ := hparams.mp hall
    cases h
    exact ⟨⟨hcovered, hcovers⟩, rfl⟩
  · rintro ⟨⟨hcovered, hcovers⟩, rfl⟩
    exact ⟨_, TypeSig.substitute_eq_ok.mpr ⟨hcovered, rfl⟩,
      bind_eq_ok.mpr ⟨_, hparams.mpr ⟨hcovers, rfl⟩, rfl⟩⟩

end MethodSig
end HotPatch
