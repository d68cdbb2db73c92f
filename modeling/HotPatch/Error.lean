import HotPatch.Attribute.Text
import HotPatch.Body.Text
import HotPatch.Code.Text
import HotPatch.Files.Path
import HotPatch.Signature.Text

/-!
# Errors

Every failure is a constructor that carries its cause. `Malformed` collects the
ways in which a value, a body or a file violates its format; `Error` adds the
failures of look-ups, of the patch itself and of the file system. The wording
of each message stands in one function per type.
-/

namespace HotPatch

/-- Ways in which a value has no encoding, or an encoding has no value. -/
inductive Malformed where
  -- signatures and attribute values
  | codedIndex (token : Token)
  | genericBase (base : TypeSig)
  | emptyMethodInstantiation
  | fixedArguments (count : Nat)
  | namedArguments (count : Nat)
  | longArray (count : Nat)
  | argumentType (found : Attribute.Argument) (expected : Attribute.ArgType)
  -- instructions and the evaluation stack
  | codeSize
  | variableIndex (index : UInt16) (opcode : Code.Opcode)
  | shortBranch (index target : Nat) (distance : Int)
  | branchDistance (distance : Int)
  | operandKind (found : Code.Operand) (opcode : Code.Opcode)
  | emitUnderflow (opcode : Code.Opcode) (depth pops : Nat)
  | valuesAtReturn (depth : Nat)
  | emptySequence
  | unfinishedSequence (last : Code.Opcode)
  | missingToken (opcode : Code.Opcode)
  | openEnd
  | inconsistentDepth (index existing depth : Nat)
  | underflow (index : Nat) (opcode : Code.Opcode) (depth pops : Nat)
  | slotsAtReturn (index depth : Nat)
  -- method bodies
  | emptyHandlerRange (handler : Handler)
  | bodySize
  | handlerCount (count : Nat)
  | handlerIndex (index : Nat)
  | missingFilter
  -- annotations and the lookup table
  | missingWrapper (position : Nat) (method : Token)
  | annotationRange
  | missingTableBody
  | tableShape
  -- images
  | imageMagic
  | imageSize (size expected : Nat)
  | openModuleName
  | moduleNameText
  | countRange
  | bodySectionSize
  | heapSize (size : Nat)
  -- symbol files
  | symbolCount
  | unknownDocument (method : Token) (document : UInt32)
  | missingOffset (index : Nat) (method : Token)
  | symbolMagic
  | documentText
  | trailingBytes (count : Nat)
  deriving Repr

namespace Malformed

open Code (Opcode)

def message : Malformed → String
  | codedIndex token =>
    s!"Invalid token table 0x{Text.upperHex 2 token.tableCode} for TypeDefOrRef coded index - {token.text}"
  | genericBase base => s!"Generic instantiation over non-class type - {base.text}"
  | emptyMethodInstantiation => "Method instantiation without arguments"
  | fixedArguments count => s!"Fixed custom attribute arguments are not supported - {count} given"
  | namedArguments count => s!"Too many named arguments - {count}"
  | longArray count => s!"Array argument too long - {count}"
  | argumentType found expected =>
    s!"Argument {found.text} does not match declared type {expected.text}"
  | codeSize => "Method body exceeds u32 range"
  | variableIndex index opcode => s!"Variable index {index.toNat} does not fit {opcode.mnemonic}"
  | shortBranch index target distance =>
    s!"Short branch at instruction {index} cannot reach {target} ({distance} bytes)"
  | branchDistance distance => s!"Branch displacement {distance} too large"
  | operandKind found opcode =>
    s!"Operand {found.text} does not match {opcode.mnemonic} ({opcode.info.operand.text})"
  | emitUnderflow opcode depth pops =>
    s!"Stack underflow emitting {opcode.mnemonic} - depth {depth}, pops {pops}"
  | valuesAtReturn depth => s!"{depth} values left on the stack at ret"
  | emptySequence => "Empty instruction sequence"
  | unfinishedSequence last => s!"Instruction sequence ends in {last.mnemonic} instead of ret"
  | missingToken opcode => s!"{opcode.mnemonic} without token operand"
  | openEnd => "Control flow falls off the end of the method body"
  | inconsistentDepth index existing depth =>
    s!"Inconsistent stack depth at instruction {index} - {existing} vs {depth}"
  | underflow index opcode depth pops =>
    s!"Stack underflow at instruction {index} ({opcode.mnemonic}) - depth {depth}, pops {pops}"
  | slotsAtReturn index depth =>
    s!"Stack not empty at return (instruction {index}) - {depth} slots left"
  | emptyHandlerRange handler => s!"Empty exception handler range - {handler.text}"
  | bodySize => "Method body size exceeds u32 range"
  | handlerCount count => s!"Too many exception handlers - {count}"
  | handlerIndex index => s!"Exception handler index {index} out of range"
  | missingFilter => "Filter clause without filter block"
  | missingWrapper position method => s!"Instantiation {position} of {method.text} has no wrapper"
  | annotationRange => "Annotation value does not fit an int32"
  | missingTableBody => "Lookup table method has no body"
  | tableShape => "Unexpected lookup table body shape"
  | imageMagic => "Not a module image - bad magic"
  | imageSize size expected => s!"Image size {size} does not match its sections ({expected})"
  | openModuleName => "Unterminated module name"
  | moduleNameText => "Module name is not UTF-8"
  | countRange => "Count exceeds u32 range"
  | bodySectionSize => "Body section exceeds u32 range"
  | heapSize size => s!"Heap exceeds u32 range - {size}"
  | symbolCount => "Symbol count exceeds u32 range"
  | unknownDocument method document =>
    s!"Sequence point of {method.text} refers to unknown document {document.toNat}"
  | missingOffset index method => s!"No IL offset for instruction {index} of {method.text}"
  | symbolMagic => "Not a symbol file - bad magic"
  | documentText => "Document name is not valid UTF-8"
  | trailingBytes count => s!"{count} trailing bytes after symbol data"

end Malformed

/-- Why an operation on a file failed. -/
inductive FileFault where
  | notFound | busy | taken | notDirectory | isDirectory | nameTooLong | zeroInPath | injected
  deriving DecidableEq, Repr

def FileFault.message : FileFault → String
  | notFound => "No such file or directory (os error 2)"
  | busy => "Device or resource busy (os error 16)"
  | taken => "File exists (os error 17)"
  | notDirectory => "Not a directory (os error 20)"
  | isDirectory => "Is a directory (os error 21)"
  | nameTooLong => "File name too long (os error 36)"
  | zeroInPath => "file name contained an unexpected NUL byte"
  | injected => "injected"

/-- Why a signature could not be closed. -/
inductive OpenCause where
  | typeParam (index : Nat)
  | methodParam (index : Nat)
  | genericOwner (method : String)
  | argumentCount (method : String) (typeParams methodParams typeArgs methodArgs : Nat)
  | openArgument (method : String) (argument : TypeSig)
  deriving DecidableEq, Repr

def OpenCause.message : OpenCause → String
  | typeParam index => s!"!{index}"
  | methodParam index => s!"!!{index}"
  | genericOwner method => s!"{method} is declared on a generic type and needs an instantiated parent"
  | argumentCount method typeParams methodParams typeArgs methodArgs =>
    s!"{method} takes {typeParams} type and {methodParams} method arguments, got {typeArgs} and {methodArgs}"
  | openArgument method argument => s!"{method} instantiated with {argument.text}"

/-- Why the lookup method is of no use. -/
inductive LookupCause where
  | container (typeName : String)
  | method (typeName methodName : String)
  | returnType (typeName methodName : String) (type : TypeSig)
  deriving DecidableEq, Repr

def LookupCause.message : LookupCause → String
  | container typeName => typeName
  | method typeName methodName => s!"{typeName}::{methodName}"
  | returnType typeName methodName type => s!"{typeName}::{methodName} returns {type.text}"

/-- The two kinds of annotation. -/
inductive MarkShape where
  | index | wrapper
  deriving DecidableEq, Repr

def MarkShape.name : MarkShape → String
  | index => "GenericMethodIndex"
  | wrapper => "GenericMethodWrapper"

/-- How far a patch has come. -/
inductive Stage where
  | created | initialized | classified | neutralized | wrappersGenerated | tableEmitted | valid
  deriving DecidableEq, Repr

def Stage.name : Stage → String
  | created => "Created"
  | initialized => "Initialized"
  | classified => "Classified"
  | neutralized => "Neutralized"
  | wrappersGenerated => "WrappersGenerated"
  | tableEmitted => "TableEmitted"
  | valid => "Valid"

inductive Error where
  | malformed (cause : Malformed)
  | outOfBounds
  | file (fault : FileFault)
  | unmappable
  | collaborator (text : String)
  | tokenNotFound (token : Token)
  | notConcrete (cause : OpenCause)
  | supportTypeMissing (typeName : String)
  | lookupMethodMissing (cause : LookupCause)
  | alreadyMarked (method : Token) (shape : MarkShape)
  | duplicateInstantiation (base : Token)
  | stackDepth (method : Token) (declared required : Nat)
  | undefinedTarget (target length : Nat)
  | wrongStage (module : String) (stage expected : Stage)
  | moduleBusy (module : String)
  | recursionLimit (limit : Nat)
  | publish (destination : Path) (message : String) (leftovers : List Path)
  | publishInconsistent (module symbols : Path) (message : String) (leftovers : List Path)
  | separatorInExtension (extension : String)
  deriving Repr

namespace Error

def message : Error → String
  | malformed cause => cause.message
  | outOfBounds => "Out of Bound read would have occurred!"
  | file fault => fault.message
  | unmappable => "No such device (os error 19)"
  | collaborator text => text
  | tokenNotFound token => s!"Token {token.text} does not resolve in this module"
  | notConcrete cause => s!"Type signature is not concrete - {cause.message}"
  | supportTypeMissing typeName =>
    s!"Support type '{typeName}' is missing or has no default constructor"
  | lookupMethodMissing cause => s!"Lookup table method '{cause.message}' is missing or malformed"
  | alreadyMarked method shape =>
    s!"Method {method.text} already carries a '{shape.name}' annotation"
  | duplicateInstantiation base => s!"Base instantiation {base.text} was recorded more than once"
  | stackDepth method declared required =>
    s!"Method {method.text} declares max stack {declared} but requires {required}"
  | undefinedTarget target length =>
    s!"Branch target {target} is outside of a body with {length} instructions"
  | wrongStage module stage expected =>
    s!"Pipeline for '{module}' is in state {stage.name}, expected {expected.name}"
  | moduleBusy module => s!"Module '{module}' is already being patched"
  | recursionLimit limit => s!"Reach the maximum recursion level allowed - {limit}"
  | publish destination message _ => s!"Publishing '{destination.text}' failed: {message}"
  | publishInconsistent module symbols message _ =>
    s!"Publishing left '{module.text}' and '{symbols.text}' inconsistent: {message}"
  | separatorInExtension extension =>
    s!"extension cannot contain path separators: {Text.quoted extension}"

end Error

/-- What an operation answers that may fail. -/
abbrev Result := Except Error

/-- Fails with a violation of a format. -/
def malformed {α : Type} (cause : Malformed) : Result α := .error (.malformed cause)

end HotPatch
