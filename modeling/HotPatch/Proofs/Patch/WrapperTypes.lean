import HotPatch.Proofs.Patch.WrapperForwarding
import HotPatch.Proofs.Signature.OpenTypes

/-!
# Open types in the signatures of wrappers

Arguments are checked for parameters, and parameters are replaced, without
following tokens. So no parameter stands in the signature of a wrapper itself,
but one may occur in a specification that a type of the method or an argument
leads to. The wrapper is closed exactly if the method's types and the arguments
that it uses lead to closed ones only.
-/

namespace HotPatch

open TypeSig

namespace Wrapper

variable {module after : Module} {request : WrapperRequest} {target : Target} {wrapper : Token}

/-- The receiver is open exactly if its owner is generic and has an open argument. -/
theorem not_opens_receiver (hnone : after.typeSpec? target.method.owner = none) :
    ¬after.Opens (receiver module request target) ↔
      (target.owner.isGeneric → ∀ arg ∈ request.typeArgs, ¬after.Opens arg) := by
  have hplain : ¬after.Opens (module.typeSignature target.method.owner) := not_opens_typeSignature hnone _
  have howner : ¬after.Opens (ownerSig module request target) ↔
      (target.owner.isGeneric → ∀ arg ∈ request.typeArgs, ¬after.Opens arg) := by
    unfold ownerSig
    cases target.owner.isGeneric
    · simpa using hplain
    · simp [opens_generic, hplain]
  unfold receiver
  split_ifs
  · rw [opens_byRef]
    exact howner
  · exact howner

theorem isConcrete_receiver (ht : ∀ arg ∈ request.typeArgs, arg.isConcrete) :
    (receiver module request target).isConcrete := by
  have hplain : (module.typeSignature target.method.owner).isConcrete := by
    unfold Module.typeSignature
    split_ifs <;> rfl
  have howner : (ownerSig module request target).isConcrete := by
    unfold ownerSig
    split_ifs
    · rw [TypeSig.isConcrete, hplain, allConcrete_iff.mpr ht]
      rfl
    · exact hplain
  unfold receiver
  split_ifs
  · exact howner
  · exact howner

/-- What holds of every type of the wrapper's signature. -/
theorem forall_mem_types_wrapperSig {p : TypeSig → Prop} :
    (∀ type ∈ (wrapperSig module request target).types, p type) ↔
      (∀ type ∈ target.method.sig.types, p (type.instantiate request.typeArgs request.methodArgs)) ∧
        (target.method.sig.hasThis → p (receiver module request target)) := by
  simp only [MethodSig.types, wrapperSig, List.forall_mem_cons, List.forall_mem_append, List.forall_mem_map,
    and_assoc, and_congr_right_iff]
  intro _
  cases target.method.sig.hasThis
  · simp
  · simp [and_comm]

theorem Admissible.covers (h : Admissible module request target) :
    ∀ type ∈ target.method.sig.types, type.Covered request.typeArgs request.methodArgs :=
  List.forall_mem_cons.mpr ⟨h.covered.returnType, h.covered.params⟩

/-- No parameter stands in the signature of a wrapper. One occurs behind a token exactly if it does so in an
argument or behind a token of the method's own signature, where these are used. -/
theorem forward_closed_iff (h : forward request module = (.ok wrapper, after)) :
    ∃ target row, Admissible module request target ∧
      wrapper = .ofRow .methodDef (module.methods.size + 1) ∧ after.methods = module.methods.push row ∧
      (∀ type ∈ row.sig.types, type.isConcrete) ∧
      ((∀ type ∈ row.sig.types, ¬after.Opens type) ↔
        (∀ type ∈ target.method.sig.types, after.Settled request.typeArgs request.methodArgs type) ∧
          (target.method.sig.hasThis → target.owner.isGeneric → ∀ arg ∈ request.typeArgs, ¬after.Opens arg)) := by
  obtain ⟨target, callee, middle, hadmissible, hc, ha⟩ := forward_iff.mp h
  obtain ⟨htoken, -, hsame, -, -⟩ := Module.addMethod_spec ha
  have hmethods := (callee_adds hc).methods_eq
  have htypes : (wrapperRow module request target callee).normalized.sig.types =
      (wrapperSig module request target).types := rfl
  refine ⟨target, (wrapperRow module request target callee).normalized, hadmissible, ?_, ?_, ?_, ?_⟩
  · rw [htoken, hmethods]
  · rw [hsame, hmethods]
  · obtain ⟨ht, hm⟩ := List.forall_mem_append.mp hadmissible.concrete
    rw [htypes, forall_mem_types_wrapperSig]
    exact ⟨fun type hmem => isConcrete_instantiate (hadmissible.covers type hmem) ht hm,
      fun _ => isConcrete_receiver ht⟩
  · have howner : after.typeSpec? target.method.owner = none := rowAt?_of_other hadmissible.owner (by decide)
    rw [htypes, forall_mem_types_wrapperSig]
    refine and_congr ?_ (imp_congr_right fun _ => not_opens_receiver howner)
    exact forall₂_congr fun type hmem => not_opens_instantiate (hadmissible.covers type hmem)

/-!
A method of one generic parameter that takes a specification of it.
-/

def specOfParam : Token := .ofRow .typeSpec 1

def openMethod : MethodDef where
  owner := .ofRow .typeDef 2
  name := "Make"
  flags := .static
  generics := ["T"]
  sig := { params := [.class specOfParam] }

def openModule : Module :=
  (((Module.withType { name := "Patch" } { name := ⟨"", "Wrappers"⟩ }).withType { name := ⟨"", "Box"⟩ }).addTypeSpec
    (.methodParam 0)).2.withMethod openMethod

def openRequest : WrapperRequest :=
  { container := .ofRow .typeDef 1, method := .ofRow .methodDef 1, ordinal := 0, position := 0,
    methodArgs := [.primitive .i4] }

theorem openModule_built : openModule.Built :=
  ((((Module.Built.new "Patch" _).withType _).withType _).addTypeSpec _).withMethod _

/-- The argument does not get behind the token, and the wrapper still leads to the parameter. -/
theorem forward_leaves_open : openModule.Built ∧
    (forward openRequest openModule).1.toOption = some (.ofRow .methodDef 2) ∧
      ((forward openRequest openModule).2.method? (.ofRow .methodDef 2)).map (·.sig.types) =
        some [.void, .class specOfParam] ∧
      (forward openRequest openModule).2.Opens (.class specOfParam) := by
  have hspec : (forward openRequest openModule).2.typeSpec? specOfParam = some ⟨.methodParam 0⟩ := by
    decide +kernel
  refine ⟨openModule_built, by decide +kernel, by decide +kernel, ?_⟩
  exact .behindClass hspec (.methodParam 0)

/-- Built-in types as arguments leave the wrapper closed. -/
theorem forward_closed_iff_box : ∃ after row,
    forward boxRequest boxModule = (.ok (.ofRow .methodDef 2), after) ∧
      after.methods = boxModule.methods.push row ∧ ∀ type ∈ row.sig.types, ¬after.Opens type := by
  have hwrapper : (forward boxRequest boxModule).1.toOption = some (.ofRow .methodDef 2) := by decide +kernel
  have h := eq_of_toOption hwrapper
  have hrow : boxModule.method? boxRequest.method = some boxMethod.normalized := by decide +kernel
  obtain ⟨target, row, hadmissible, -, hmethods, -, hclosed⟩ := forward_closed_iff h
  have hmethod : target.method = boxMethod.normalized := Option.some.inj (hadmissible.method.symm.trans hrow)
  refine ⟨_, row, h, hmethods, hclosed.mpr ⟨?_, fun _ _ arg ha => ?_⟩⟩
  · rw [hmethod]
    simp [MethodSig.types, MethodDef.normalized, boxMethod, settled_vector, settled_byRef,
      settled_of_leaf (rfl : (TypeSig.typeParam 0).children = []),
      settled_of_leaf (rfl : (TypeSig.methodParam 0).children = []), Module.SettledAt, boxRequest,
      not_opens_primitive]
  · rw [List.mem_singleton.mp ha]
    exact not_opens_primitive .i4

end Wrapper
end HotPatch
