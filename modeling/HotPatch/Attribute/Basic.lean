/-!
# Custom attribute values

An attribute carries positional and named arguments. A named argument says
whether it sets a field or a property, its declared type and its value; the
value of an array is read by the declared element type.
-/

namespace HotPatch.Attribute

inductive ArgType where
  | boolean | i4 | u4 | string | type
  | vector (element : ArgType)
  deriving DecidableEq, Repr, Inhabited

inductive Argument where
  | bool (value : Bool)
  | i4 (value : Int32)
  | u4 (value : UInt32)
  | string (value : Option String)
  | type (name : String)
  | array (items : List Argument)
  deriving Repr, Inhabited

namespace Argument

def asI4? : Argument → Option Int32
  | .i4 value => some value
  | _ => none

/-- The names in an array of types, if every item is a type. -/
def asTypeNames? : Argument → Option (List String)
  | .array items => items.mapM fun
    | .type name => some name
    | _ => none
  | _ => none

end Argument

structure NamedArgument where
  isField : Bool
  name : String
  argType : ArgType
  value : Argument
  deriving Repr, Inhabited

def NamedArgument.field (name : String) (argType : ArgType) (value : Argument) : NamedArgument :=
  { isField := true, name, argType, value }

structure Value where
  fixed : List Argument := []
  named : List NamedArgument := []
  deriving Repr, Inhabited

/-- The value of the first field argument of the given name. -/
def Value.field? (value : Value) (name : String) : Option Argument :=
  (value.named.find? fun arg => arg.isField && arg.name == name).map (·.value)

end HotPatch.Attribute
