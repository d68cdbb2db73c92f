import HotPatch.Bytes.Compressed
import HotPatch.Error

/-!
# Signature blobs

A type is one byte for its kind, followed by what the kind needs: a compressed
coded index for a named type, a compressed index for a parameter, the element
of a vector, the target of a reference, or base, count and arguments of a
generic instantiation. The base must be a named type. The other blobs put a
header byte and counts in front of types.
-/

namespace HotPatch

/-- The byte of a built-in type. -/
def Primitive.code : Primitive → UInt8
  | .void => 0x01
  | .boolean => 0x02
  | .char => 0x03
  | .i1 => 0x04
  | .u1 => 0x05
  | .i2 => 0x06
  | .u2 => 0x07
  | .i4 => 0x08
  | .u4 => 0x09
  | .i8 => 0x0A
  | .u8 => 0x0B
  | .r4 => 0x0C
  | .r8 => 0x0D
  | .string => 0x0E
  | .i => 0x18
  | .u => 0x19
  | .object => 0x1C

/-- The number of a type's row that also tells its table, in the two lowest bits. -/
def Token.codedIndex (token : Token) : Result Nat :=
  match token.table? with
  | some .typeDef => .ok (token.row * 4)
  | some .typeRef => .ok (token.row * 4 + 1)
  | some .typeSpec => .ok (token.row * 4 + 2)
  | _ => malformed (.codedIndex token)

namespace TypeSig

/-- Whether the signature is a token behind a kind, as the base of an instantiation must be. -/
def isNamed : TypeSig → Bool
  | .class _ | .valueType _ => true
  | _ => false

mutual

def encode : TypeSig → Result Bytes
  | .primitive type => .ok [type.code]
  | .class token => return 0x12 :: Bytes.compressed (← token.codedIndex)
  | .valueType token => return 0x11 :: Bytes.compressed (← token.codedIndex)
  | .typeParam index => .ok (0x13 :: Bytes.compressed index)
  | .methodParam index => .ok (0x1E :: Bytes.compressed index)
  | .generic base args =>
    if base.isNamed then do
      let head ← encode base
      return 0x15 :: head ++ Bytes.compressed args.length ++ (← encodeAll args)
    else malformed (.genericBase base)
  | .vector element => return 0x1D :: (← encode element)
  | .byRef target => return 0x10 :: (← encode target)

def encodeAll : List TypeSig → Result Bytes
  | [] => .ok []
  | type :: types => do
    let head ← encode type
    return head ++ (← encodeAll types)

end

/-- The blob of a field's type. -/
def encodeField (type : TypeSig) : Result Bytes := return 0x06 :: (← type.encode)

/-- The blob of a list of local variables. -/
def encodeLocals (types : List TypeSig) : Result Bytes :=
  return 0x07 :: Bytes.compressed types.length ++ (← encodeAll types)

/-- The blob of a method instantiation, which needs at least one argument. -/
def encodeMethodInstantiation (args : List TypeSig) : Result Bytes :=
  if args.isEmpty then malformed .emptyMethodInstantiation
  else return 0x0A :: Bytes.compressed args.length ++ (← encodeAll args)

end TypeSig

namespace MethodSig

/-- The header byte: one bit for a receiver and one for generic parameters. -/
def convention (sig : MethodSig) : UInt8 :=
  (if sig.hasThis then 0x20 else 0) + (if 0 < sig.genericCount then 0x10 else 0)

def encode (sig : MethodSig) : Result Bytes := do
  let generics := if 0 < sig.genericCount then Bytes.compressed sig.genericCount else []
  let returnType ← sig.returnType.encode
  let params ← TypeSig.encodeAll sig.params
  return sig.convention :: generics ++ Bytes.compressed sig.params.length ++ returnType ++ params

end MethodSig
end HotPatch
