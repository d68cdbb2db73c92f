import HotPatch.Module.Basic
import HotPatch.Proofs.Signature.Instantiation

/-!
# Types that are open behind a token

A token may stand for a specification, whose signature mentions further types.
So a generic parameter can occur in a type without standing in its signature.
Substitution does not follow tokens: what is open behind one stays open.
-/

namespace HotPatch

open TypeSig

/-- A generic parameter occurs in the type, or in a specification that the type leads to. -/
inductive Module.Opens (module : Module) : TypeSig → Prop where
  | typeParam (index : Nat) : Opens module (.typeParam index)
  | methodParam (index : Nat) : Opens module (.methodParam index)
  | inside {child whole : TypeSig} (mem : child ∈ whole.children) (inner : Opens module child) :
    Opens module whole
  | behindClass {token : Token} {spec : TypeSpec} (found : module.typeSpec? token = some spec)
    (inner : Opens module spec.sig) : Opens module (.class token)
  | behindValueType {token : Token} {spec : TypeSpec} (found : module.typeSpec? token = some spec)
    (inner : Opens module spec.sig) : Opens module (.valueType token)

section Opens

variable {module : Module} {token : Token}

theorem opens_class :
    module.Opens (.class token) ↔ ∃ spec, module.typeSpec? token = some spec ∧ module.Opens spec.sig := by
  constructor
  · intro h
    cases h with
    | inside mem => cases mem
    | behindClass found inner => exact ⟨_, found, inner⟩
  · rintro ⟨spec, found, inner⟩
    exact .behindClass found inner

theorem opens_valueType :
    module.Opens (.valueType token) ↔ ∃ spec, module.typeSpec? token = some spec ∧ module.Opens spec.sig := by
  constructor
  · intro h
    cases h with
    | inside mem => cases mem
    | behindValueType found inner => exact ⟨_, found, inner⟩
  · rintro ⟨spec, found, inner⟩
    exact .behindValueType found inner

theorem not_opens_primitive (type : Primitive) : ¬module.Opens (.primitive type) := by
  intro h
  cases h with
  | inside mem => cases mem

theorem opens_generic {base : TypeSig} {args : List TypeSig} :
    module.Opens (.generic base args) ↔ module.Opens base ∨ ∃ arg ∈ args, module.Opens arg := by
  rw [← List.exists_mem_cons_iff (p := module.Opens)]
  constructor
  · intro h
    cases h with
    | inside mem inner => exact ⟨_, mem, inner⟩
  · rintro ⟨child, mem, inner⟩
    exact .inside mem inner

theorem opens_vector {element : TypeSig} : module.Opens (.vector element) ↔ module.Opens element := by
  constructor
  · intro h
    cases h with
    | inside mem inner => rwa [List.mem_singleton.mp mem] at inner
  · exact .inside (List.mem_singleton_self element)

theorem opens_byRef {target : TypeSig} : module.Opens (.byRef target) ↔ module.Opens target := by
  constructor
  · intro h
    cases h with
    | inside mem inner => rwa [List.mem_singleton.mp mem] at inner
  · exact .inside (List.mem_singleton_self target)

/-- A token that names no specification leads nowhere. -/
theorem not_opens_typeSignature (h : module.typeSpec? token = none) (isValue : Bool) :
    ¬module.Opens (if isValue then .valueType token else .class token) := by
  cases isValue
  · simp [opens_class, h]
  · simp [opens_valueType, h]

end Opens

section Instances

variable {module : Module} {typeArgs methodArgs : List TypeSig}

/-- What takes the place of the type, or stands behind it, is closed. -/
def Module.SettledAt (module : Module) (typeArgs methodArgs : List TypeSig) : TypeSig → Prop
  | .typeParam index => ∀ arg, typeArgs[index]? = some arg → ¬module.Opens arg
  | .methodParam index => ∀ arg, methodArgs[index]? = some arg → ¬module.Opens arg
  | .class token => ¬module.Opens (.class token)
  | .valueType token => ¬module.Opens (.valueType token)
  | _ => True

/-- All arguments that the type uses are closed, and so is whatever stands behind its tokens. -/
def Module.Settled (module : Module) (typeArgs methodArgs : List TypeSig) : TypeSig → Prop :=
  Everywhere children (module.SettledAt typeArgs methodArgs)

theorem settled_of_leaf {sig : TypeSig} (hleaf : sig.children = []) :
    module.Settled typeArgs methodArgs sig ↔ module.SettledAt typeArgs methodArgs sig := everywhere_of_leaf hleaf

theorem settled_generic {base : TypeSig} {args : List TypeSig} :
    module.Settled typeArgs methodArgs (.generic base args) ↔
      module.Settled typeArgs methodArgs base ∧ ∀ arg ∈ args, module.Settled typeArgs methodArgs arg :=
  everywhere_generic.trans (and_iff_right trivial)

theorem settled_vector {element : TypeSig} :
    module.Settled typeArgs methodArgs (.vector element) ↔ module.Settled typeArgs methodArgs element :=
  everywhere_vector.trans (and_iff_right trivial)

theorem settled_byRef {target : TypeSig} :
    module.Settled typeArgs methodArgs (.byRef target) ↔ module.Settled typeArgs methodArgs target :=
  everywhere_byRef.trans (and_iff_right trivial)

theorem not_opens_argument {args : List TypeSig} {index : Nat} {other : TypeSig} (h : index < args.length) :
    ¬module.Opens (args[index]?.getD other) ↔ ∀ arg, args[index]? = some arg → ¬module.Opens arg := by
  simp [List.getElem?_eq_getElem h]

/-- An instance is closed exactly if the arguments are that it uses, and what stands behind the tokens of
the type is: substitution leaves these alone. -/
theorem not_opens_instantiate {sig : TypeSig} (hc : sig.Covered typeArgs methodArgs) :
    ¬module.Opens (sig.instantiate typeArgs methodArgs) ↔ module.Settled typeArgs methodArgs sig := by
  induction sig using TypeSig.induct with
  | primitive type =>
    rw [settled_of_leaf rfl, instantiate]
    exact iff_of_true (not_opens_primitive type) trivial
  | named token =>
    rw [settled_of_leaf rfl, instantiate]
    exact Iff.rfl
  | valueType token =>
    rw [settled_of_leaf rfl, instantiate]
    exact Iff.rfl
  | typeParam index =>
    rw [settled_of_leaf rfl, instantiate]
    exact not_opens_argument (hc _ .self)
  | methodParam index =>
    rw [settled_of_leaf rfl, instantiate]
    exact not_opens_argument (hc _ .self)
  | generic base args ihbase ihargs =>
    obtain ⟨hbase, hargs⟩ := covered_generic.mp hc
    rw [settled_generic, instantiate, instantiateAll_eq_map, opens_generic, not_or]
    refine and_congr (ihbase hbase) ?_
    simp only [List.mem_map, not_exists, not_and, forall_exists_index, and_imp, forall_apply_eq_imp_iff₂]
    exact forall₂_congr fun arg ha => ihargs arg ha (hargs arg ha)
  | vector element ih =>
    rw [settled_vector, instantiate, opens_vector]
    exact ih (covered_vector.mp hc)
  | byRef target ih =>
    rw [settled_byRef, instantiate, opens_byRef]
    exact ih (covered_byRef.mp hc)

theorem allConcrete_iff {args : List TypeSig} : allConcrete args ↔ ∀ arg ∈ args, arg.isConcrete := by
  induction args with
  | nil => simp [allConcrete]
  | cons arg args ih => simp [allConcrete, ih]

theorem isConcrete_argument {args : List TypeSig} {index : Nat} {other : TypeSig} (h : index < args.length)
    (hall : ∀ arg ∈ args, arg.isConcrete) : (args[index]?.getD other).isConcrete := by
  rw [List.getElem?_eq_getElem h, Option.getD_some]
  exact hall _ (List.getElem_mem h)

/-- No parameter stands in an instance itself, if none stands in the arguments. -/
theorem isConcrete_instantiate {sig : TypeSig} (hc : sig.Covered typeArgs methodArgs)
    (ht : ∀ arg ∈ typeArgs, arg.isConcrete) (hm : ∀ arg ∈ methodArgs, arg.isConcrete) :
    (sig.instantiate typeArgs methodArgs).isConcrete := by
  induction sig using TypeSig.induct with
  | primitive | named | valueType => rfl
  | typeParam index => exact isConcrete_argument (hc _ .self) ht
  | methodParam index => exact isConcrete_argument (hc _ .self) hm
  | generic base args ihbase ihargs =>
    obtain ⟨hbase, hargs⟩ := covered_generic.mp hc
    rw [instantiate, instantiateAll_eq_map, isConcrete, Bool.and_eq_true, allConcrete_iff]
    refine ⟨ihbase hbase, List.forall_mem_map.mpr fun arg ha => ihargs arg ha (hargs arg ha)⟩
  | vector element ih => exact ih (covered_vector.mp hc)
  | byRef target ih => exact ih (covered_byRef.mp hc)

end Instances
end HotPatch
