import HotPatch.Attribute.Basic
import HotPatch.Text.Quoted

/-!
# The text of attribute arguments in messages
-/

namespace HotPatch.Attribute

def ArgType.text : ArgType → String
  | .boolean => "Boolean"
  | .i4 => "I4"
  | .u4 => "U4"
  | .string => "String"
  | .type => "Type"
  | .vector element => "SzArray(" ++ element.text ++ ")"

namespace Argument

mutual

def text : Argument → String
  | .bool value => "Bool(" ++ (if value then "true" else "false") ++ ")"
  | .i4 value => "I4(" ++ toString value.toInt ++ ")"
  | .u4 value => "U4(" ++ toString value.toNat ++ ")"
  | .string (some value) => "String(Some(" ++ Text.quoted value ++ "))"
  | .string none => "String(None)"
  | .type name => "Type(" ++ Text.quoted name ++ ")"
  | .array items => "Array([" ++ ", ".intercalate (texts items) ++ "])"

def texts : List Argument → List String
  | [] => []
  | item :: items => text item :: texts items

end

end Argument
end HotPatch.Attribute
