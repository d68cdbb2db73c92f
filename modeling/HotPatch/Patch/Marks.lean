import HotPatch.Module.Edit
import HotPatch.Patch.Config
import HotPatch.Patch.Instantiation

/-!
# Marks on generic methods and wrappers

A generic method is marked with its number, and each wrapper with the number of
its method, its position and the names of its arguments. Marks are attributes
whose types live in the support module; a method carries at most one mark of
each shape.
-/

namespace HotPatch

def indexField : String := "index"
def positionField : String := "instantiationOrdinal"
def typeArgumentsField : String := "typeArguments"

/-- An attribute type of the support module. -/
structure SupportType where
  assembly : String
  name : TypeName
  deriving DecidableEq, Repr

namespace SupportType

def isDefaultConstructor (method : MethodDef) : Bool :=
  method.name == MethodDef.constructorName && !method.isStatic && method.sig.params.isEmpty

/-- Finds a type that can be constructed without arguments. -/
def resolve (support : Module) (fullName : String) : Result SupportType :=
  match (support.findType? fullName).bind support.typeDef? with
  | some type =>
    if type.methods.any fun method => (support.method? method).any isDefaultConstructor then
      .ok ⟨support.name, type.name⟩
    else .error (.supportTypeMissing fullName)
  | none => .error (.supportTypeMissing fullName)

def fullName (type : SupportType) : String := type.name.text

def constructorSig : MethodSig := { hasThis := true }

/-- Makes the constructor known to a module. -/
def importConstructor (type : SupportType) : Edit Token := do
  let parent ← Edit.always (·.addTypeRef ⟨.assembly type.assembly, type.name⟩)
  Edit.always (·.addMemberRef ⟨parent, MethodDef.constructorName, constructorSig⟩)

end SupportType

structure SupportTypes where
  index : SupportType
  wrapper : SupportType
  deriving DecidableEq, Repr

def SupportTypes.resolve (config : Config) (support : Module) : Result SupportTypes :=
  return ⟨← SupportType.resolve support config.indexAttribute,
    ← SupportType.resolve support config.wrapperAttribute⟩

structure IndexMark where
  index : Int32
  deriving DecidableEq, Repr

structure WrapperMark where
  index : Int32
  position : Int32
  typeArguments : List String
  deriving DecidableEq, Repr

/-- The full name of the type that a constructor belongs to. -/
def attributeType? (module : Module) (constructor : Token) : Option String := do
  let owner ← match ← constructor.table? with
    | .memberRef => (module.memberRef? constructor).map (·.parent)
    | .methodDef => module.methodOwner? constructor
    | _ => none
  (module.fullName owner).toOption

/-- The value of the first attribute of the given type on a method. -/
def findMark? (module : Module) (method : Token) (type : SupportType) : Option Attribute.Value :=
  ((module.attributesOf method).find? fun row =>
    attributeType? module row.constructor == some type.fullName).map (·.value)

def findIndexMark? (support : SupportTypes) (module : Module) (method : Token) : Option IndexMark := do
  let value ← findMark? module method support.index
  return ⟨← (← value.field? indexField).asI4?⟩

def findWrapperMark? (support : SupportTypes) (module : Module) (method : Token) : Option WrapperMark := do
  let value ← findMark? module method support.wrapper
  return {
    index := ← (← value.field? indexField).asI4?
    position := ← (← value.field? positionField).asI4?
    typeArguments := ← (← value.field? typeArgumentsField).asTypeNames? }

/-- The number as it is stored in a mark. -/
def markNumber (value : Nat) : Result Int32 :=
  if value < 0x80000000 then .ok (.ofNat value) else malformed .annotationRange

def indexArgument (value : Int32) : Attribute.NamedArgument := .field indexField .i4 (.i4 value)

def IndexMark.value (mark : IndexMark) : Attribute.Value := { named := [indexArgument mark.index] }

def WrapperMark.value (mark : WrapperMark) : Attribute.Value :=
  { named := [indexArgument mark.index, .field positionField .i4 (.i4 mark.position),
      .field typeArgumentsField (.vector .type) (.array (mark.typeArguments.map .type))] }

/-- The constructors of both marks in the module that is marked. -/
structure MarkWriter where
  support : SupportTypes
  indexConstructor : Token
  wrapperConstructor : Token
  deriving DecidableEq, Repr

namespace MarkWriter

def create (support : SupportTypes) : Edit MarkWriter := do
  let indexConstructor ← support.index.importConstructor
  let wrapperConstructor ← support.wrapper.importConstructor
  return { support, indexConstructor, wrapperConstructor }

/-- Marks a generic method with its number. -/
def markMethod (writer : MarkWriter) (method : Token) (index : Nat) : Edit Token := do
  if (findIndexMark? writer.support (← get) method).isSome then throw (.alreadyMarked method .index)
  else
    let mark ← Edit.inspect fun _ => return IndexMark.mk (← markNumber index)
    Edit.attempt (·.addAttribute ⟨method, writer.indexConstructor, mark.value⟩)

/-- Marks a wrapper with the number of its method, its position and its arguments. -/
def markWrapper (writer : MarkWriter) (wrapper : Token) (index position : Nat) (args : List TypeSig) :
    Edit Token := do
  if (findWrapperMark? writer.support (← get) wrapper).isSome then throw (.alreadyMarked wrapper .wrapper)
  else
    let mark ← Edit.inspect fun module => do
      let typeArguments ← args.mapM module.reflectionName
      return WrapperMark.mk (← markNumber index) (← markNumber position) typeArguments
    Edit.attempt (·.addAttribute ⟨wrapper, writer.wrapperConstructor, mark.value⟩)

end MarkWriter

/-- The wrapper of an instantiation. -/
def requireWrapper (record : GenericRecord) (position : Nat) (inst : Instantiation) : Result Token :=
  match inst.wrapper with
  | some wrapper => .ok wrapper
  | none => malformed (.missingWrapper position record.method)

def markRecord (writer : MarkWriter) (record : GenericRecord) : Edit Nat := do
  match record.ordinal with
  | none => return 0
  | some ordinal =>
    let _ ← writer.markMethod record.method ordinal
    record.instantiations.zipIdx.forM fun (inst, position) => do
      let wrapper ← Edit.inspect fun _ => requireWrapper record position inst
      let _ ← writer.markWrapper wrapper ordinal position inst.allArgs
    return 1 + record.instantiations.length

/-- Marks all numbered records with their wrappers, and tells the number of marks. -/
def markRecords (support : SupportTypes) (records : List GenericRecord) : Edit Nat := do
  let writer ← MarkWriter.create support
  return (← records.mapM (markRecord writer)).foldl (· + ·) 0

end HotPatch
