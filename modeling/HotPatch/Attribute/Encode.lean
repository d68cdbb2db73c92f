import HotPatch.Bytes.Compressed
import HotPatch.Error

/-!
# Attribute blobs

The blob opens with a two-byte mark and the 16-bit number of named arguments.
Each of these is a byte for field or property, the declared type, the name and
the value. Positional arguments have no encoding here.
-/

namespace HotPatch.Attribute

def ArgType.encode : ArgType → Bytes
  | .boolean => [0x02]
  | .i4 => [0x08]
  | .u4 => [0x09]
  | .string => [0x0E]
  | .type => [0x50]
  | .vector element => 0x1D :: element.encode

namespace Argument

mutual

/-- A value is written by its declared type, which must be its own. -/
def encode : ArgType → Argument → Result Bytes
  | .boolean, .bool value => .ok [value.toUInt8]
  | .i4, .i4 value => .ok (Bytes.littleEndian 4 value.toUInt32.toNat)
  | .u4, .u4 value => .ok (Bytes.littleEndian 4 value.toNat)
  | .string, .string value => .ok (Bytes.countedText value)
  | .type, .type name => .ok (Bytes.countedText (some name))
  | .vector element, .array items =>
    if items.length < 0x100000000 then
      return Bytes.littleEndian 4 items.length ++ (← encodeAll element items)
    else malformed (.longArray items.length)
  | expected, found => malformed (.argumentType found expected)

def encodeAll : ArgType → List Argument → Result Bytes
  | _, [] => .ok []
  | element, item :: items => do
    let head ← encode element item
    return head ++ (← encodeAll element items)

end

end Argument

def NamedArgument.encode (arg : NamedArgument) : Result Bytes := do
  let value ← arg.value.encode arg.argType
  return (if arg.isField then 0x53 else 0x54) :: arg.argType.encode ++
    Bytes.countedText (some arg.name) ++ value

def Value.encode (value : Value) : Result Bytes :=
  if !value.fixed.isEmpty then malformed (.fixedArguments value.fixed.length)
  else if value.named.length < 0x10000 then do
    let args ← value.named.mapM NamedArgument.encode
    return [0x01, 0x00] ++ Bytes.littleEndian 2 value.named.length ++ args.flatten
  else malformed (.namedArguments value.named.length)

end HotPatch.Attribute
