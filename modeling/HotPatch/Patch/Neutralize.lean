import HotPatch.Body.Target
import HotPatch.Module.Edit
import HotPatch.Patch.Config
import HotPatch.TokenSet

/-!
# Neutralizing static initializers

A static initializer of a touched type has run already and must not run again,
so it gets a return in front. Types that were added, and types that hold
closures, keep theirs.
-/

namespace HotPatch

inductive Exemption where
  | closureContainer | addedType
  deriving DecidableEq, Repr

def Exemption.name : Exemption → String
  | closureContainer => "ClosureContainer"
  | addedType => "AddedType"

/-- Whether the marker occurs in the name. -/
def occursIn (marker : List Char) : List Char → Bool
  | [] => marker.isEmpty
  | c :: rest => marker.isPrefixOf (c :: rest) || occursIn marker rest

theorem occursIn_iff {marker name : List Char} : occursIn marker name = true ↔ marker <:+: name := by
  induction name with
  | nil => simp [occursIn]
  | cons c rest ih => simp [occursIn, ih, List.infix_cons_iff]

/-- Why the initializer of a type is kept, if it is. -/
def exemption? (config : Config) (added : List String) (typeName : String) : Option Exemption :=
  if occursIn config.closureMarker.toList typeName.toList then some .closureContainer
  else if added.contains typeName then some .addedType
  else none

/-- The static initializers of a type that have code. -/
def runningInitializers (module : Module) (type : TypeDef) : List Token :=
  type.methods.filter fun token =>
    (module.method? token).any fun method => method.isStaticInitializer && method.hasBody

/-- The initializers of one type that are to be neutralized. -/
def initializersOf (config : Config) (added : List String) (module : Module) (token : Token) :
    Result (List Token) := do
  let name ← module.fullName token
  match exemption? config added name with
  | some _ => return []
  | none => return runningInitializers module (← Module.require (module.typeDef? token) token)

/-- Inserts an instruction into the body of a method, if it has one. -/
def Module.insertInstruction (module : Module) (token : Token) (index : Nat)
    (instruction : Code.Instruction) : Result Module := do
  let method ← require (module.method? token) token
  match method.body with
  | none => return module
  | some body =>
    let body ← body.insert index instruction
    return (module.modifyMethod? token fun row => { row with body := some body }).getD module

/-- Neutralizes the initializers of the touched types and lists them. -/
def neutralize (config : Config) (touched : TokenSet) (added : List String) (module : Module) :
    Result (List Token × Module) := do
  let initializers := (← touched.mapM (initializersOf config added module)).flatten
  let module ← initializers.foldlM (fun module token => module.insertInstruction token 0 { opcode := .ret })
    module
  return (initializers, module)

end HotPatch
