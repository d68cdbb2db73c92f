import HotPatch.Module.Basic

/-!
# Names of types and methods

The full name of a nested type lists the levels from the outside in; the space
of a nested level does not count. Reflection names join the levels with a plus,
resolve instantiations, and end in the assembly, unless the type belongs to
this module or to a core library. Chains of enclosing types and nested
signatures are followed through a bounded number of levels, since a module may
hold cycles.
-/

namespace HotPatch

/-- A named type with the levels around it. -/
structure NestedName where
  outer : TypeName
  inner : List String := []
  assembly : Option String := none
  deriving DecidableEq, Repr

namespace NestedName

def text (separator : String) (name : NestedName) : String :=
  name.inner.foldl (fun text level => text ++ separator ++ level) name.outer.text

def nest (name : NestedName) (level : String) : NestedName :=
  { name with inner := name.inner ++ [level] }

theorem text_nest (name : NestedName) (separator level : String) :
    (name.nest level).text separator = name.text separator ++ separator ++ level := by
  rw [text, nest, List.foldl_append]
  rfl

end NestedName

/-- Types of these assemblies are named without an assembly. -/
def coreLibraries : List String := ["mscorlib", "netstandard", "System.Private.CoreLib", "System.Runtime"]

/-- Levels below the first that are followed. -/
def levelLimit : Nat := 50

/-- What stands in a reflection name for a built-in type. -/
def Primitive.reflectionName : Primitive → String
  | .void => "System.Void"
  | .boolean => "System.Boolean"
  | .char => "System.Char"
  | .i1 => "System.SByte"
  | .u1 => "System.Byte"
  | .i2 => "System.Int16"
  | .u2 => "System.UInt16"
  | .i4 => "System.Int32"
  | .u4 => "System.UInt32"
  | .i8 => "System.Int64"
  | .u8 => "System.UInt64"
  | .r4 => "System.Single"
  | .r8 => "System.Double"
  | .string => "System.String"
  | .object => "System.Object"
  | .i => "System.IntPtr"
  | .u => "System.UIntPtr"

/-- A reflection name whose assembly is not yet written. -/
structure QualifiedName where
  name : String
  assembly : Option String := none
  deriving DecidableEq, Repr

def QualifiedName.text (name : QualifiedName) : String :=
  match name.assembly with
  | some assembly => name.name ++ ", " ++ assembly
  | none => name.name

def QualifiedName.append (name : QualifiedName) (suffix : String) : QualifiedName :=
  { name with name := name.name ++ suffix }

namespace Module

variable (module : Module)

/-- The name of a type, with at most the given number of levels. -/
def nestedName : Nat → Token → Result NestedName
  | 0, _ => .error (.recursionLimit levelLimit)
  | levels + 1, token =>
    match module.typeDef? token with
    | some type =>
      match type.enclosing with
      | some enclosing => return (← nestedName levels enclosing).nest type.name.simple
      | none => .ok { outer := type.name }
    | none =>
      match module.typeRef? token with
      | some type =>
        match type.scope with
        | .nested enclosing => return (← nestedName levels enclosing).nest type.name.simple
        | .assembly assembly => .ok { outer := type.name, assembly := some assembly }
      | none => .error (.tokenNotFound token)

def fullName (token : Token) : Result String :=
  return (← module.nestedName (levelLimit + 1) token).text "/"

def methodFullName (token : Token) : Result String := do
  let method ← require (module.method? token) token
  return (← module.fullName method.owner) ++ "::" ++ method.name

/-- What stands for a method in a text: its full name, or its token if it has none. -/
def methodLabel (token : Token) : String :=
  match module.methodFullName token with
  | .ok name => name
  | .error _ => token.text

/-- The first type definition with the given full name. -/
def findType? (name : String) : Option Token :=
  module.typeDefTokens.find? fun token => (module.fullName token).toOption == some name

/-- Whether instances of the type are values: it derives from the value type, or from the
enumeration type without being that type. -/
def isValueType (token : Token) : Bool :=
  match module.typeDef? token with
  | none => false
  | some type =>
    match type.base.map module.fullName with
    | some (.ok "System.ValueType") => true
    | some (.ok "System.Enum") => type.name != ⟨"System", "Enum"⟩
    | _ => false

/-- The signature that names a type definition. -/
def typeSignature (token : Token) : TypeSig :=
  if module.isValueType token then .valueType token else .class token

/-- The assembly that a reflection name mentions. -/
def qualifier (name : NestedName) : Option String :=
  name.assembly.filter fun assembly => !coreLibraries.contains assembly

/-- The reflection name of a signature with at most the given number of levels. -/
def qualifiedName : Nat → TypeSig → Result QualifiedName
  | 0, _ => .error (.recursionLimit levelLimit)
  | levels + 1, sig =>
    let named (token : Token) : Result QualifiedName :=
      if token.isIn .typeSpec then do
        let spec ← require (module.typeSpec? token) token
        qualifiedName levels spec.sig
      else do
        let name ← module.nestedName levels token
        return ⟨name.text "+", qualifier name⟩
    match sig with
    | .primitive type => .ok ⟨type.reflectionName, none⟩
    | .class token => named token
    | .valueType token => named token
    | .typeParam index => .error (.notConcrete (.typeParam index))
    | .methodParam index => .error (.notConcrete (.methodParam index))
    | .generic base args => do
      let base ← qualifiedName levels base
      let args ← args.mapM fun arg => return "[" ++ (← qualifiedName levels arg).text ++ "]"
      return base.append ("[" ++ ",".intercalate args ++ "]")
    | .vector element => return (← qualifiedName levels element).append "[]"
    | .byRef target => return (← qualifiedName levels target).append "&"

def reflectionName (sig : TypeSig) : Result String :=
  return (← module.qualifiedName (levelLimit + 1) sig).text

end Module
end HotPatch
