import HotPatch.Text.Hex
import HotPatch.Text.Invisible

/-!
# Quoted strings

How messages show a string: between double quotes, with a backslash before a
quote or a backslash, letters for the common control characters, and the code
point in braces for any other character that has no visible form of its own.
-/

namespace HotPatch.Text

/-- How one character stands inside the quotes. -/
def quotedChar (c : Char) : List Char :=
  match c with
  | '\x00' => ['\\', '0']
  | '\t' => ['\\', 't']
  | '\n' => ['\\', 'n']
  | '\r' => ['\\', 'r']
  | '"' => ['\\', '"']
  | '\\' => ['\\', '\\']
  | c => if isInvisible c then "\\u\x7b".toList ++ (shortHex c.toNat).toList ++ ['\x7d'] else [c]

def quoted (text : String) : String :=
  String.ofList ('"' :: text.toList.flatMap quotedChar ++ ['"'])

end HotPatch.Text
