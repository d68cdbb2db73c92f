import HotPatch.Bytes.Basic
import HotPatch.Text.Hex

/-!
# Bytes as hexadecimal text

Two lower-case digits for each byte, the high half first. Either case is read.
-/

namespace HotPatch

namespace Text

/-- The value of a hexadecimal digit of either case. -/
def hexDigit? (c : Char) : Option Nat :=
  if 48 ≤ c.toNat ∧ c.toNat ≤ 57 then some (c.toNat - 48)
  else if 97 ≤ c.toNat ∧ c.toNat ≤ 102 then some (c.toNat - 87)
  else if 65 ≤ c.toNat ∧ c.toNat ≤ 70 then some (c.toNat - 55)
  else none

/-- The number that a numeral stands for. -/
def ofHex? (digits : List Char) : Option Nat :=
  digits.foldlM (fun n c => (hexDigit? c).map (n * 16 + ·)) 0

end Text

namespace Bytes

def hexChars : Bytes → List Char
  | [] => []
  | b :: rest => Text.lowerHexDigit (b.toNat / 16) :: Text.lowerHexDigit (b.toNat % 16) :: hexChars rest

def hex (bytes : Bytes) : String := String.ofList bytes.hexChars

def ofHexChars? : List Char → Option Bytes
  | [] => some []
  | [_] => none
  | high :: low :: rest => do
    let b := UInt8.ofNat ((← Text.hexDigit? high) * 16 + (← Text.hexDigit? low))
    return b :: (← ofHexChars? rest)

def ofHex? (text : String) : Option Bytes := ofHexChars? text.toList

end Bytes
end HotPatch
