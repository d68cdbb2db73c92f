import HotPatch.Proofs.Module.ConsistentStore
import HotPatch.Proofs.Patch.SoundPhases
import HotPatch.Proofs.Signature.Instantiation

/-!
# Wrappers forward

A wrapper stands for one instantiation of a method. It takes the receiver and
the instantiated parameters, passes them on in their order in one call, and
returns what the call returns. The call goes to the method itself, through the
instantiated owner and the instantiated method as far as these are generic.
-/

namespace HotPatch

section Requests

variable {module module' : Module} {request : WrapperRequest} {wrapper : Token}

namespace Wrapper

variable {target : Target}

/-- Whether the request can be fulfilled: besides the checks, the method has a name, the container is there,
and the signature mentions no parameter without an argument. -/
structure Admissible (module : Module) (request : WrapperRequest) (target : Target) : Prop
    extends Checked module request target where
  named : ∃ name, module.fullName target.method.owner = .ok name
  container : (module.typeDef? request.container).isSome
  covered : target.method.sig.Covered request.typeArgs request.methodArgs

/-- How a method gets its receiver: an object as itself, and a value by reference. -/
inductive Receives (module : Module) (request : WrapperRequest) (target : Target) : TypeSig → Prop where
  | object (type : module.isValueType target.method.owner = false) (plain : target.owner.isGeneric = false) :
    Receives module request target (.class target.method.owner)
  | genericObject (type : module.isValueType target.method.owner = false) (generic : target.owner.isGeneric) :
    Receives module request target (.generic (.class target.method.owner) request.typeArgs)
  | value (type : module.isValueType target.method.owner) (plain : target.owner.isGeneric = false) :
    Receives module request target (.byRef (.valueType target.method.owner))
  | genericValue (type : module.isValueType target.method.owner) (generic : target.owner.isGeneric) :
    Receives module request target (.byRef (.generic (.valueType target.method.owner) request.typeArgs))

theorem receives_receiver (module : Module) (request : WrapperRequest) (target : Target) :
    Receives module request target (receiver module request target) := by
  unfold receiver ownerSig Module.typeSignature
  cases hv : module.isValueType target.method.owner <;> cases hg : target.owner.isGeneric
  · exact .object hv hg
  · exact .genericObject hv hg
  · exact .value hv hg
  · exact .genericValue hv hg

/-- The signature of the wrapper: a receiver becomes a parameter, and nothing is open any more. -/
def wrapperSig (module : Module) (request : WrapperRequest) (target : Target) : MethodSig where
  returnType := target.method.sig.returnType.instantiate request.typeArgs request.methodArgs
  params := (if target.method.sig.hasThis then [receiver module request target] else []) ++
    target.method.sig.params.map (·.instantiate request.typeArgs request.methodArgs)

theorem length_params_wrapperSig (module : Module) (request : WrapperRequest) (target : Target) :
    (wrapperSig module request target).params.length =
      target.method.sig.params.length + target.method.sig.hasThis.toNat := by
  rw [wrapperSig, List.length_append, List.length_map, Nat.add_comm]
  cases target.method.sig.hasThis <;> rfl

theorem signature_eq_ok {sig : MethodSig} (ht : Wrapper.target module request = .ok target) :
    signature module request = .ok sig ↔
      target.method.sig.Covered request.typeArgs request.methodArgs ∧ sig = wrapperSig module request target := by
  rw [signature, ht]
  change (target.method.sig.substitute request.typeArgs request.methodArgs >>= _) = _ ↔ _
  rw [bind_eq_ok]
  constructor
  · rintro ⟨concrete, hc, h⟩
    obtain ⟨hcovered, rfl⟩ := MethodSig.substitute_eq_ok.mp hc
    cases h
    refine ⟨hcovered, ?_⟩
    cases hthis : target.method.sig.hasThis <;> simp [MethodSig.instantiate, wrapperSig, hthis]
  · rintro ⟨hcovered, rfl⟩
    refine ⟨_, MethodSig.substitute_eq_ok.mpr ⟨hcovered, rfl⟩, congrArg Except.ok ?_⟩
    cases hthis : target.method.sig.hasThis <;> simp [MethodSig.instantiate, wrapperSig, hthis]

/-- The wrapper of an admissible request, written out. -/
def wrapperRow (module : Module) (request : WrapperRequest) (target : Target) (callee : Token) : MethodDef :=
  row request target (wrapperSig module request target) (passingBody callee target.method.sig)

theorem forward_iff : forward request module = (.ok wrapper, module') ↔ ∃ target callee middle,
    Admissible module request target ∧ Wrapper.callee request target module = (.ok callee, middle) ∧
      middle.addMethod (wrapperRow module request target callee) = .ok (wrapper, module') := by
  rw [forward_eq_ok]
  constructor
  · rintro ⟨target, sig, callee, body, middle, ht, hs, hc, hb, ha⟩
    obtain ⟨hchecked, hnamed⟩ := target_eq_ok.mp ht
    obtain ⟨hcovered, rfl⟩ := (signature_eq_ok ht).mp hs
    rw [body_eq, Except.ok.injEq] at hb
    subst hb
    have hcontainer := (Module.exists_addMethod_iff _).mp ⟨_, _, ha⟩
    rw [(callee_adds hc).typeDef?_eq] at hcontainer
    exact ⟨target, callee, middle, ⟨hchecked, hnamed, hcontainer, hcovered⟩, hc, ha⟩
  · rintro ⟨target, callee, middle, h, hc, ha⟩
    have ht := target_eq_ok.mpr ⟨h.toChecked, h.named⟩
    exact ⟨target, _, callee, _, middle, ht, (signature_eq_ok ht).mpr ⟨h.covered, rfl⟩, hc, body_eq _ _, ha⟩

theorem exists_forward_iff :
    (∃ wrapper module', forward request module = (.ok wrapper, module')) ↔
      ∃ target, Admissible module request target := by
  simp only [forward_iff]
  constructor
  · rintro ⟨wrapper, module', target, callee, middle, h, -⟩
    exact ⟨target, h⟩
  · rintro ⟨target, h⟩
    obtain ⟨callee, middle, hc⟩ := exists_callee request target module
    have hcontainer := h.container
    rw [← (callee_adds hc).typeDef?_eq] at hcontainer
    obtain ⟨wrapper, module', ha⟩ :=
      (Module.exists_addMethod_iff (wrapperRow module request target callee)).mpr hcontainer
    exact ⟨wrapper, module', target, callee, middle, h, hc, ha⟩

/-- The wrapper is there, and passes on to the method of the request what it is called with. -/
structure Forwards (before : Module) (request : WrapperRequest) (target : Target) (wrapper : Token)
    (after : Module) (row : MethodDef) (body : Body) (callee : Token) : Prop where
  added : Module.Extension (some request.container) [wrapper] (fun _ => False) before after
  attributes : after.attributes = before.attributes
  found : after.method? wrapper = some row
  owner : row.owner = request.container
  name : row.name = wrapperName target.method.name request.ordinal request.position
  static : row.isStatic
  access : row.flags.bits &&& 0x0007 = MethodFlags.publicAccess.bits
  plain : row.generics = [] ∧ row.sig.genericCount = 0
  hasThis : row.sig.hasThis = false
  params : ∃ receiver, Receives before request target receiver ∧
    row.sig.params = (if target.method.isStatic then [] else [receiver]) ++
      target.method.sig.params.map (·.instantiate request.typeArgs request.methodArgs)
  returnType : row.sig.returnType = target.method.sig.returnType.instantiate request.typeArgs request.methodArgs
  running : row.body = some body
  code : body.PassesOn row.sig.params.length callee
  reaches : Reaches after (before.typeSignature target.method.owner) request target callee
  listed : request.method ∈ target.owner.methods
  called : after.callSignature callee = .ok target.method.sig
  stack : body.requiredStack after.callSignature (!target.method.sig.returnType.isVoid) = .ok body.maxStack.toNat

theorem exists_forwards (hbuilt : module.Built) (h : forward request module = (.ok wrapper, module'))
    (hfit : module'.RowsFit)
    (hslots : ∀ method, module.method? request.method = some method →
      method.sig.params.length + method.sig.hasThis.toNat ≤ MethodSig.slotLimit) :
    ∃ target row body callee, Admissible module request target ∧
      Forwards module request target wrapper module' row body callee := by
  have hextension := forward_extension h
  have hbefore := hextension.grows.rowsFit hfit
  obtain ⟨target, callee, middle, hadmissible, hc, ha⟩ := forward_iff.mp h
  have hmethod := hadmissible.method
  have hadded := Module.addMethod_extension ha
  have hreaches := (callee_reaches hc (hadded.grows.rowsFit hfit)).mono hadded.toKeepsReferences
  -- a module that was built tells the receiver by the flags, and lists the method at its owner
  have hthis := (hbuilt.holds Module.normalized_invariant hbefore _ _ hmethod).1
  obtain ⟨type, howner, hlisted⟩ := (hbuilt.wellFormed hbefore).owned _ _ hmethod
  obtain rfl : target.owner = type := Option.some.inj (hadmissible.owner.symm.trans howner)
  have hkept : module'.method? request.method = some target.method := by
    obtain ⟨code, hkept, hsame⟩ := hextension.method _ _ hmethod
    rw [hkept, Classical.not_not.mp hsame]
  -- no slot is lost, so the arguments are as many as the parameters of the wrapper
  have hcount : target.method.sig.argumentSlots = target.method.sig.params.length + target.method.sig.hasThis.toNat := by
    have hle := hslots _ hmethod
    rw [MethodSig.argumentSlots]
    omega
  have hstatic : MethodFlags.wrapper.contains .static = true := by decide
  refine ⟨target, (wrapperRow module request target callee).normalized, passingBody callee target.method.sig, callee,
    hadmissible, ?_⟩
  constructor
  case added => exact hextension
  case attributes => exact forward_attributes h
  case found => exact Module.method?_addMethod ha hfit
  case params =>
    refine ⟨_, receives_receiver module request target, ?_⟩
    change (wrapperSig module request target).params = _
    rw [wrapperSig, hthis]
    cases target.method.isStatic <;> rfl
  case code =>
    have hpassed := passingBody_passesOn callee target.method.sig
    rwa [hcount, ← length_params_wrapperSig module request] at hpassed
  case listed => exact hlisted
  case reaches => exact hreaches
  case called => exact hreaches.callSignature hkept
  case stack => exact requiredStack_passingBody (hreaches.callSignature hkept)
  case static => exact hstatic
  case access =>
    change MethodFlags.wrapper.bits &&& 0x0007 = _
    decide
  case hasThis =>
    simp only [MethodDef.normalized, MethodDef.isStatic, wrapperRow, row, hstatic, Bool.not_true]
  case plain => exact ⟨rfl, rfl⟩
  all_goals rfl

/-- A request is fulfilled exactly if it is admissible. Then the container gets one wrapper, nothing else but
references is added, and the wrapper passes its arguments on to the method of the request. Its body declares
the stack that it needs, where the signature of the method tells whether there is a value to return: the
wrapper's own tells the same unless `void` is an argument. -/
theorem forward_faithful (hbuilt : module.Built)
    (hslots : ∀ method, module.method? request.method = some method →
      method.sig.params.length + method.sig.hasThis.toNat ≤ MethodSig.slotLimit) :
    ((∃ wrapper module', forward request module = (.ok wrapper, module')) ↔
      ∃ target, Admissible module request target) ∧
    ∀ wrapper module', forward request module = (.ok wrapper, module') → module'.RowsFit →
      ∃ target row body callee, Admissible module request target ∧
        Forwards module request target wrapper module' row body callee :=
  ⟨exists_forward_iff, fun _ _ h hfit => exists_forwards hbuilt h hfit hslots⟩

def boxMethod : MethodDef where
  owner := .ofRow .typeDef 2
  name := "Put"
  generics := ["U"]
  sig := { returnType := .typeParam 0, params := [.vector (.methodParam 0), .byRef (.typeParam 0)] }

/-- A generic value type with a generic instance method. -/
def boxModule : Module :=
  let valueType := (Module.addTypeRef { name := "Patch" } ⟨.assembly "mscorlib", ⟨"System", "ValueType"⟩⟩).2
  let holder := valueType.withType { name := ⟨"", "Holder"⟩ }
  (holder.withType { name := ⟨"", "Box"⟩, base := some (.ofRow .typeRef 1), generics := ["T"] }).withMethod boxMethod

theorem boxModule_built : boxModule.Built :=
  (((Module.Built.new "Patch" _).addTypeRef _).withType _).withType _ |>.withMethod _

def boxRequest : WrapperRequest :=
  { container := .ofRow .typeDef 1, method := .ofRow .methodDef 1, ordinal := 3, position := 1,
    typeArgs := [.primitive .i4], methodArgs := [.primitive .string] }

theorem forward_faithful_box : ∃ after target row body callee,
    forward boxRequest boxModule = (.ok (.ofRow .methodDef 2), after) ∧ after.RowsFit ∧
      Admissible boxModule boxRequest target ∧
      Forwards boxModule boxRequest target (.ofRow .methodDef 2) after row body callee := by
  have hrow : boxModule.method? boxRequest.method = some boxMethod.normalized := by decide +kernel
  have hslots : ∀ method, boxModule.method? boxRequest.method = some method →
      method.sig.params.length + method.sig.hasThis.toNat ≤ MethodSig.slotLimit := by
    intro method hm
    rw [hrow, Option.some.injEq] at hm
    subst hm
    decide
  obtain ⟨-, hforwards⟩ := forward_faithful boxModule_built hslots
  have hwrapper : (forward boxRequest boxModule).1.toOption = some (.ofRow .methodDef 2) := by decide +kernel
  have hforward := eq_of_toOption hwrapper
  have hfit : (forward boxRequest boxModule).2.RowsFit := by
    intro table
    cases table <;> decide +kernel
  obtain ⟨target, row, body, callee, hadmissible, h⟩ := hforwards _ _ hforward hfit
  exact ⟨_, target, row, body, callee, hforward, hfit, hadmissible, h⟩

end Wrapper
end Requests
end HotPatch
