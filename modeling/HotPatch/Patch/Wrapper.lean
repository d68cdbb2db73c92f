import HotPatch.Code.Assembler
import HotPatch.Module.Edit
import HotPatch.Patch.Config
import HotPatch.Patch.Instantiation
import HotPatch.Signature.Substitute

/-!
# Wrappers of generic instantiations

A wrapper is a static method without generic parameters that takes the receiver,
if there is one, and the arguments of an instantiated method, passes them all on
in one call and returns the result. The caller's reference to the method leads
through the instantiated owner and the instantiated method, as far as these are
generic.
-/

namespace HotPatch

/-- What a wrapper is generated from. -/
structure WrapperRequest where
  container : Token
  method : Token
  ordinal : Nat
  position : Nat
  typeArgs : List TypeSig := []
  methodArgs : List TypeSig := []
  deriving DecidableEq, Repr

abbrev WrapperGenerator := WrapperRequest → Edit Token

def wrapperName (method : String) (ordinal position : Nat) : String :=
  s!"__Gen_Wrapper__{method}_{ordinal}_{position}"

/-- The type that holds the wrappers. -/
def findContainer (config : Config) (module : Module) : Result Token :=
  match module.findType? config.wrapperType with
  | some token => .ok token
  | none => .error (.lookupMethodMissing (.container config.wrapperType))

namespace Wrapper

/-- The method of a request with its owner, after the request was checked. -/
structure Target where
  method : MethodDef
  owner : TypeDef
  deriving DecidableEq, Repr

def target (module : Module) (request : WrapperRequest) : Result Target := do
  let method ← Module.require (module.method? request.method) request.method
  let owner ← Module.require (module.typeDef? method.owner) method.owner
  let name ← module.methodFullName request.method
  if owner.generics.length ≠ request.typeArgs.length ∨
      method.generics.length ≠ request.methodArgs.length then
    .error (.notConcrete (.argumentCount name owner.generics.length method.generics.length
      request.typeArgs.length request.methodArgs.length))
  else
    match (request.typeArgs ++ request.methodArgs).find? (!·.isConcrete) with
    | some arg => .error (.notConcrete (.openArgument name arg))
    | none => return ⟨method, owner⟩

/-- The owner, instantiated if it is generic. -/
def ownerSig (module : Module) (request : WrapperRequest) (target : Target) : TypeSig :=
  let owner := module.typeSignature target.method.owner
  if target.owner.isGeneric then .generic owner request.typeArgs else owner

/-- Values are passed by reference. -/
def receiver (module : Module) (request : WrapperRequest) (target : Target) : TypeSig :=
  let owner := ownerSig module request target
  if module.isValueType target.method.owner then .byRef owner else owner

def signature (module : Module) (request : WrapperRequest) : Result MethodSig := do
  let target ← target module request
  let concrete ← target.method.sig.substitute request.typeArgs request.methodArgs
  let params := if concrete.hasThis then receiver module request target :: concrete.params else concrete.params
  return { returnType := concrete.returnType, params }

/-- The reference through which the wrapper calls its method. -/
def callee (request : WrapperRequest) (target : Target) : Edit Token := do
  let module ← get
  let member ←
    if target.owner.isGeneric then
      let ownerSpec ← Edit.always (·.addTypeSpec (ownerSig module request target))
      Edit.always (·.addMemberRef ⟨ownerSpec, target.method.name, target.method.sig⟩)
    else pure request.method
  if target.method.isGeneric then Edit.always (·.addMethodSpec ⟨member, request.methodArgs⟩)
  else return member

/-- Loads all arguments, calls and returns. -/
def body (callee : Token) (sig : MethodSig) : Result Body := do
  let asm ← (List.range sig.argumentSlots).foldlM (fun asm slot => asm.ldarg (.ofNat slot)) ({} : Code.Assembler)
  let asm ← asm.call callee sig
  let (instructions, maxStack) ← (← asm.ret).finish
  return { instructions, maxStack := .ofNat maxStack }

/-- Generates the wrapper and answers its token. -/
def forward : WrapperGenerator := fun request => do
  let target ← Edit.inspect fun module => target module request
  let sig ← Edit.inspect fun module => signature module request
  let callee ← callee request target
  let body ← Edit.inspect fun _ => body callee target.method.sig
  Edit.attempt (·.addMethod {
    owner := request.container
    name := wrapperName target.method.name request.ordinal request.position
    flags := .wrapper
    sig
    body := some body })

end Wrapper

/-- Generates the wrappers of one record from a position on. Instantiations whose wrapper was
generated keep it when a later one fails. -/
def wrapInstantiations (generator : WrapperGenerator) (request : WrapperRequest) :
    Nat → List Instantiation → Module → Result Unit × List Instantiation × Module
  | _, [], module => (.ok (), [], module)
  | position, inst :: rest, module =>
    match generator { request with position, typeArgs := inst.typeArgs, methodArgs := inst.methodArgs } module with
    | (.ok wrapper, module) =>
      let (result, rest, module) := wrapInstantiations generator request (position + 1) rest module
      (result, { inst with wrapper := some wrapper } :: rest, module)
    | (.error error, module) => (.error error, inst :: rest, module)

/-- What the generation of wrappers works on. -/
structure WrapperState where
  module : Module
  records : List GenericRecord
  ordinals : OrdinalAllocator

/-- Numbers the records with instantiations and generates their wrappers, up to the first failure. -/
def wrapRecords (generator : WrapperGenerator) (container : Token) :
    List GenericRecord → OrdinalAllocator → Module → Result Unit × WrapperState
  | [], ordinals, module => (.ok (), ⟨module, [], ordinals⟩)
  | record :: rest, ordinals, module =>
    if record.instantiations.isEmpty then
      let (result, state) := wrapRecords generator container rest ordinals module
      (result, { state with records := record :: state.records })
    else
      let (ordinal, ordinals) := ordinals.allocate
      let request : WrapperRequest := { container, method := record.method, ordinal, position := 0 }
      match wrapInstantiations generator request 0 record.instantiations module with
      | (.ok (), instantiations, module) =>
        let (result, state) := wrapRecords generator container rest ordinals module
        (result, { state with records := { record with ordinal := some ordinal, instantiations } :: state.records })
      | (.error error, instantiations, module) =>
        (.error error, ⟨module, { record with ordinal := some ordinal, instantiations } :: rest, ordinals⟩)

/-- Generates all wrappers and tells their number. Nothing is needed if there are none. -/
def generateWrappers (config : Config) (generator : WrapperGenerator) (state : WrapperState) :
    Result Nat × WrapperState :=
  let count := (state.records.flatMap (·.instantiations)).length
  if count = 0 then (.ok 0, state)
  else
    match findContainer config state.module with
    | .error error => (.error error, state)
    | .ok container =>
      let (result, state) := wrapRecords generator container state.records state.ordinals state.module
      (result.map fun () => count, state)

end HotPatch
