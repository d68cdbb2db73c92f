import HotPatch.Bytes.Reader
import HotPatch.Digest.Sha1
import HotPatch.Module.Basic

/-!
# Symbol files

A symbol file names the image that it belongs to by digest and identifier, lists
the source documents, and gives for each method with source spans the offsets of
the instructions that carry them. Nothing may follow the last method.
-/

namespace HotPatch.Image

def symbolMagic : Bytes := Bytes.ofText "DPSY"

def symbolVersion : Nat := 1

/-- The source spans of a method, with offsets into its code. -/
structure MethodSymbols where
  method : Token
  points : List (Nat × Code.SequencePoint)
  deriving DecidableEq, Repr

structure SymbolFile where
  digest : Digest
  versionId : VersionId
  documents : List String
  methods : List MethodSymbols
  deriving DecidableEq, Repr

namespace SymbolFile

/-- The spans of the first entry of a method. -/
def method? (file : SymbolFile) (method : Token) : Option MethodSymbols :=
  file.methods.find? (·.method == method)

def encodePoint (offset : Nat) (point : Code.SequencePoint) : Bytes :=
  Bytes.littleEndian 4 offset ++ Bytes.littleEndian 4 point.document.toNat ++
    Bytes.littleEndian 4 point.startLine.toNat ++ Bytes.littleEndian 2 point.startColumn.toNat ++
    Bytes.littleEndian 4 point.endLine.toNat ++ Bytes.littleEndian 2 point.endColumn.toNat ++
    [point.isHidden.toUInt8]

def encodeMethod (symbols : MethodSymbols) : Bytes :=
  Bytes.littleEndian 4 symbols.method.value.toNat ++ Bytes.littleEndian 4 symbols.points.length ++
    symbols.points.flatMap fun (offset, point) => encodePoint offset point

def encodeDocument (name : String) : Bytes :=
  Bytes.littleEndian 4 (Bytes.ofText name).length ++ Bytes.ofText name

def encode (file : SymbolFile) : Bytes :=
  symbolMagic ++ Bytes.littleEndian 2 symbolVersion ++ [0, 0] ++ file.digest.toList ++
    file.versionId.toList ++ Bytes.littleEndian 4 file.documents.length ++
    file.documents.flatMap encodeDocument ++ Bytes.littleEndian 4 file.methods.length ++
    file.methods.flatMap encodeMethod

def documentReader : Reader String := do
  let length ← Reader.number 4
  let bytes ← Reader.bytes length
  match bytes.toText? with
  | some name => return name
  | none => Reader.fail .documentText

def pointReader : Reader (Nat × Code.SequencePoint) := do
  let offset ← Reader.number 4
  let document ← Reader.number 4
  let startLine ← Reader.number 4
  let startColumn ← Reader.number 2
  let endLine ← Reader.number 4
  let endColumn ← Reader.number 2
  let hidden ← Reader.number 1
  return (offset, {
    document := .ofNat document
    startLine := .ofNat startLine
    startColumn := .ofNat startColumn
    endLine := .ofNat endLine
    endColumn := .ofNat endColumn
    isHidden := hidden != 0 })

def methodReader : Reader MethodSymbols := do
  let method ← Reader.number 4
  return ⟨⟨.ofNat method⟩, ← Reader.counted pointReader⟩

def reader : Reader SymbolFile := do
  let magic ← Reader.bytes 4
  if magic ≠ symbolMagic then Reader.fail .symbolMagic
  else
    let _version ← Reader.number 2
    let _reserved ← Reader.number 2
    let digest ← Reader.vector 20
    let versionId ← Reader.vector 16
    let documents ← Reader.counted documentReader
    let methods ← Reader.counted methodReader
    return ⟨digest, versionId, documents, methods⟩

def parse (bytes : Bytes) : Result SymbolFile := do
  let (file, rest) ← reader.run bytes
  if rest.isEmpty then return file else malformed (.trailingBytes rest.length)

end SymbolFile
end HotPatch.Image
