import HotPatch.Bytes.Basic

/-!
# Compressed integers and counted strings

A number below 2^7 takes one byte, below 2^14 two and below 2^29 four; the
leading bits of the first byte tell the width, and the number follows most
significant byte first. Larger numbers are written as 2^29 - 1. A string is its
UTF-8 bytes behind their compressed count, and the absent string is the single
byte 0xFF, which no compressed count starts with.
-/

namespace HotPatch.Bytes

/-- The greatest number that the compressed form can hold. -/
def compressedMax : Nat := 0x1FFFFFFF

def compressed (value : Nat) : Bytes :=
  if value ≤ 0x7F then
    [UInt8.ofNat value]
  else if value ≤ 0x3FFF then
    [UInt8.ofNat (0x80 + value / 256), UInt8.ofNat value]
  else
    let value := min value compressedMax
    [UInt8.ofNat (0xC0 + value / 0x1000000), UInt8.ofNat (value / 0x10000),
      UInt8.ofNat (value / 256), UInt8.ofNat value]

/-- Reads a compressed number off the front. A first byte of 0xE0 or above starts none. -/
def uncompress? : Bytes → Option (Nat × Bytes)
  | [] => none
  | a :: rest =>
    if a.toNat < 0x80 then some (a.toNat, rest)
    else if a.toNat < 0xC0 then
      match rest with
      | b :: rest => some ((a.toNat - 0x80) * 256 + b.toNat, rest)
      | [] => none
    else if a.toNat < 0xE0 then
      match rest with
      | b :: c :: d :: rest =>
        some ((((a.toNat - 0xC0) * 256 + b.toNat) * 256 + c.toNat) * 256 + d.toNat, rest)
      | _ => none
    else none

/-- The counted form of an optional string. -/
def countedText : Option String → Bytes
  | some text => compressed (ofText text).length ++ ofText text
  | none => [0xFF]

end HotPatch.Bytes
