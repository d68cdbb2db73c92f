import HotPatch.Bytes.Reader
import HotPatch.Module.Basic

/-!
# The header of a module image

Forty-eight bytes: mark, version, two reserved bytes, version identifier, the
offset of the module's name among the strings, and the sizes of the five
sections that follow. The sizes must add up to the length of the image.
-/

namespace HotPatch.Image

def imageMagic : Bytes := Bytes.ofText "DPMD"

def imageVersion : Nat := 1

def headerSize : Nat := 48

/-- The sizes of the sections, in their order. -/
structure SectionSizes where
  tables : Nat
  strings : Nat
  blobs : Nat
  userStrings : Nat
  bodies : Nat
  deriving DecidableEq, Repr

def SectionSizes.toList (sizes : SectionSizes) : List Nat :=
  [sizes.tables, sizes.strings, sizes.blobs, sizes.userStrings, sizes.bodies]

structure Header where
  version : Nat
  versionId : VersionId
  nameOffset : Nat
  sections : SectionSizes
  deriving DecidableEq, Repr

namespace Header

/-- The length of an image with this header. -/
def imageSize (header : Header) : Nat := header.sections.toList.foldl (· + ·) headerSize

def encode (header : Header) : Bytes :=
  imageMagic ++ Bytes.littleEndian 2 header.version ++ [0, 0] ++ header.versionId.toList ++
    Bytes.littleEndian 4 header.nameOffset ++ header.sections.toList.flatMap (Bytes.littleEndian 4)

def reader : Reader Header := do
  let magic ← Reader.bytes 4
  if magic ≠ imageMagic then Reader.fail .imageMagic
  else
    let version ← Reader.number 2
    let _reserved ← Reader.bytes 2
    let versionId ← Reader.vector 16
    let nameOffset ← Reader.number 4
    let tables ← Reader.number 4
    let strings ← Reader.number 4
    let blobs ← Reader.number 4
    let userStrings ← Reader.number 4
    let bodies ← Reader.number 4
    return ⟨version, versionId, nameOffset, ⟨tables, strings, blobs, userStrings, bodies⟩⟩

def parse (image : Bytes) : Result Header := do
  let (header, _) ← reader.run image
  if header.imageSize = image.length then return header
  else malformed (.imageSize image.length header.imageSize)

/-- The text at an offset of a heap, up to the next zero byte. -/
def textAt (strings : Bytes) (offset : Nat) : Result String :=
  match strings.slice? offset strings.length with
  | none => .error .outOfBounds
  | some tail =>
    if tail.contains 0 then
      match Bytes.toText? (tail.takeWhile (· != 0)) with
      | some text => .ok text
      | none => malformed .moduleNameText
    else malformed .openModuleName

/-- The module's name in an image with this header. -/
def moduleName (header : Header) (image : Bytes) : Result String :=
  let start := headerSize + header.sections.tables
  match image.slice? start (start + header.sections.strings) with
  | none => .error .outOfBounds
  | some strings => textAt strings header.nameOffset

end Header
end HotPatch.Image
