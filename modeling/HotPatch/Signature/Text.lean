import HotPatch.Signature.Basic

/-!
# The text of a signature in messages

Every type is written as its constructor, with tokens in their detailed form.
-/

namespace HotPatch

def Primitive.text : Primitive → String
  | .void => "Void"
  | .boolean => "Boolean"
  | .char => "Char"
  | .i1 => "I1"
  | .u1 => "U1"
  | .i2 => "I2"
  | .u2 => "U2"
  | .i4 => "I4"
  | .u4 => "U4"
  | .i8 => "I8"
  | .u8 => "U8"
  | .r4 => "R4"
  | .r8 => "R8"
  | .string => "String"
  | .object => "Object"
  | .i => "I"
  | .u => "U"

namespace TypeSig

mutual

def text : TypeSig → String
  | .primitive type => type.text
  | .class token => "Class(" ++ token.detail ++ ")"
  | .valueType token => "ValueType(" ++ token.detail ++ ")"
  | .typeParam index => "GenericParamType(" ++ toString index ++ ")"
  | .methodParam index => "GenericParamMethod(" ++ toString index ++ ")"
  | .generic base args => "GenericInst(" ++ text base ++ ", [" ++ ", ".intercalate (texts args) ++ "])"
  | .vector element => "SzArray(" ++ text element ++ ")"
  | .byRef target => "ByRef(" ++ text target ++ ")"

def texts : List TypeSig → List String
  | [] => []
  | arg :: args => text arg :: texts args

end

end TypeSig
end HotPatch
