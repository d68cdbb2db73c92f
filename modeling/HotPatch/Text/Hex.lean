/-!
# Hexadecimal numerals

Numerals of a fixed width, as tokens and table codes are written, and of the
least width, as left-over flag bits are written.
-/

namespace HotPatch.Text

def lowerHexDigit (d : Nat) : Char :=
  if d < 10 then Char.ofNat (48 + d) else Char.ofNat (87 + d)

def upperHexDigit (d : Nat) : Char :=
  if d < 10 then Char.ofNat (48 + d) else Char.ofNat (55 + d)

/-- The `width` least significant hexadecimal digits of a number, highest first. -/
def hexDigits (digit : Nat → Char) : Nat → Nat → List Char
  | 0, _ => []
  | width + 1, n => hexDigits digit width (n / 16) ++ [digit (n % 16)]

def lowerHex (width n : Nat) : String := String.ofList (hexDigits lowerHexDigit width n)

def upperHex (width n : Nat) : String := String.ofList (hexDigits upperHexDigit width n)

/-- The number of hexadecimal digits of a number, at least one. -/
def hexWidth (n : Nat) : Nat := n.log2 / 4 + 1

/-- The numeral without leading zeros. -/
def shortHex (n : Nat) : String := lowerHex (hexWidth n) n

end HotPatch.Text
