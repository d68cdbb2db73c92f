import HotPatch.Decimal.Shortest

/-!
# Doubles in messages

A finite double is written with its shortest decimal: positionally, with at
least one digit after the point, if its leading digit stands for a power of ten
from -4 to 15, and otherwise with an exponent that has neither plus sign nor
leading zeros.
-/

namespace HotPatch.Decimal

/-- Positional and scientific notation meet at these powers of ten. -/
def plainFrom : Int := -4
def plainBelow : Int := 16

def zeros (n : Nat) : String := String.ofList (List.replicate n '0')

/-- Writes a positive decimal without trailing zeros. -/
def Scaled.layout (d : Scaled) : String :=
  let digits := (Nat.toDigits 10 d.digits)
  let lead : Int := d.exponent + digits.length - 1
  if plainFrom ≤ lead ∧ lead < plainBelow then
    if 0 ≤ d.exponent then
      String.ofList digits ++ zeros d.exponent.toNat ++ ".0"
    else if 0 ≤ lead then
      String.ofList (digits.take (lead.toNat + 1)) ++ "." ++ String.ofList (digits.drop (lead.toNat + 1))
    else
      "0." ++ zeros (-lead - 1).toNat ++ String.ofList digits
  else
    let fraction := digits.drop 1
    String.ofList (digits.take 1) ++ (if fraction.isEmpty then "" else "." ++ String.ofList fraction) ++
      "e" ++ toString lead

/-- The text of the double with the given bits. -/
def doubleText (bits : UInt64) : String :=
  let negative := 0x8000000000000000 ≤ bits.toNat
  let exponent := bits.toNat / 0x10000000000000 % 0x800
  let fraction := bits.toNat % 0x10000000000000
  if exponent = 2047 ∧ fraction ≠ 0 then "NaN"
  else
    let magnitude :=
      if exponent = 2047 then "inf"
      else if exponent = 0 ∧ fraction = 0 then "0.0"
      else ((Dyadic.ofBits bits).shortest.strip 400).layout
    if negative then "-" ++ magnitude else magnitude

end HotPatch.Decimal
