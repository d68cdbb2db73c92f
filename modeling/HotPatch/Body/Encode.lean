import HotPatch.Body.Target
import HotPatch.Code.Encode

/-!
# Encoded bodies

A short and plain body is its code behind one byte. Any other body has a header
of twelve bytes; protected regions follow the code in a section that starts at
a multiple of four and spends 24 bytes on each region.
-/

namespace HotPatch

/-- The byte that opens a section of regions with 24-bit size. -/
def handlerSectionKind : UInt8 := 0x41

def handlerSectionLimit : Nat := 0x1000000

/-- The offset of an instruction that a region refers to. -/
def handlerOffset (code : Code.EncodedCode) (index : Nat) : Result Nat :=
  match code.offsetOf? index with
  | some offset => .ok offset
  | none => malformed (.handlerIndex index)

/-- The last field of a region: the filter's offset, or the class of the exceptions. -/
def Handler.classOrFilter (handler : Handler) (code : Code.EncodedCode) : Result Nat :=
  if handler.flags.contains .filterBlock then
    match handler.filterStart with
    | some start => handlerOffset code start
    | none => malformed .missingFilter
  else .ok ((handler.classToken.map (·.value.toNat)).getD 0)

def Handler.encode (code : Code.EncodedCode) (handler : Handler) : Result Bytes := do
  let tryStart ← handlerOffset code handler.tryStart
  let tryEnd ← handlerOffset code handler.tryEnd
  let handlerStart ← handlerOffset code handler.handlerStart
  let handlerEnd ← handlerOffset code handler.handlerEnd
  let last ← handler.classOrFilter code
  return [handler.flags.bits.toNat, tryStart, tryEnd - tryStart, handlerStart,
    handlerEnd - handlerStart, last].flatMap (Bytes.littleEndian 4)

def encodeHandlers (handlers : List Handler) (code : Code.EncodedCode) : Result Bytes :=
  let size := 4 + handlers.length * 24
  if size < handlerSectionLimit then do
    let clauses ← handlers.mapM (·.encode code)
    return handlerSectionKind :: Bytes.littleEndian 3 size ++ clauses.flatten
  else malformed (.handlerCount handlers.length)

structure EncodedBody where
  bytes : Bytes
  code : Code.EncodedCode
  deriving DecidableEq, Repr

namespace Body

/-- Whether one byte is enough of a header for the body, whose code has the given size. -/
def isTiny (body : Body) (codeSize : Nat) : Bool :=
  codeSize < 64 && body.maxStack ≤ 8 && body.locals.isNone && body.handlers.isEmpty && !body.initLocals

/-- The flags of a full header and, in the top four bits, its size in words. -/
def headerFlags (body : Body) : Nat :=
  3 + (if body.handlers.isEmpty then 0 else 8) + (if body.initLocals then 0x10 else 0) + 0x3000

def header (body : Body) (codeSize : Nat) : Bytes :=
  Bytes.littleEndian 2 body.headerFlags ++ Bytes.littleEndian 2 body.maxStack.toNat ++
    Bytes.littleEndian 4 codeSize ++
    Bytes.littleEndian 4 ((body.locals.map (·.value.toNat)).getD 0)

def encode (body : Body) : Result EncodedBody := do
  body.checkTargets
  let code ← Code.encode body.instructions
  if body.isTiny code.size then
    return ⟨UInt8.ofNat (code.size * 4 + 2) :: code.bytes, code⟩
  else if code.size < Code.codeLimit then
    let plain := body.header code.size ++ code.bytes
    if body.handlers.isEmpty then return ⟨plain, code⟩
    else return ⟨Bytes.padToFour 0 plain ++ (← encodeHandlers body.handlers code), code⟩
  else malformed .bodySize

end Body
end HotPatch
