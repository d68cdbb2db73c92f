import HotPatch.Attribute.Encode
import HotPatch.Body.Encode
import HotPatch.Body.StackDepth
import HotPatch.Image.Header
import HotPatch.Image.Heap
import HotPatch.Image.SymbolFile
import HotPatch.Signature.Encode

/-!
# Writing a module

The image holds header, tables, strings, blobs, user strings and method bodies,
each section filled up to a multiple of four. The tables open with the numbers
of rows of those that have any; the rows follow in the order of the tables,
with names and blobs as offsets into their heaps. The symbol file is written
against the digest of the finished image.
-/

namespace HotPatch.Image

/-- The encoded bodies of a module, with the tokens of their methods. -/
abbrev Bodies := List (Token × EncodedBody)

/-- Checks that the body of a method, if it has one, declares a stack that is large enough. -/
def checkStackDepth (module : Module) (token : Token) (method : MethodDef) : Result Unit :=
  match method.body with
  | none => .ok ()
  | some body => do
    let required ← body.requiredStack module.callSignature (!method.sig.returnType.isVoid)
    if body.maxStack.toNat < required then .error (.stackDepth token body.maxStack.toNat required)
    else .ok ()

def checkStackDepths (module : Module) : Result Unit :=
  (module.methodTokens.zip module.methods.toList).forM fun (token, method) =>
    checkStackDepth module token method

/-- The encoded body of a method, if it has one. -/
def encodeBody (token : Token) (method : MethodDef) : Result (Option (Token × EncodedBody)) :=
  match method.body with
  | none => .ok none
  | some body => return some (token, ← body.encode)

def encodeBodies (module : Module) : Result Bodies := do
  let bodies ← (module.methodTokens.zip module.methods.toList).mapM fun (token, method) =>
    encodeBody token method
  return bodies.filterMap id

/-- What the rows of the tables are written into: the pieces of the rows, the last one first, and
the heaps that they refer to. -/
structure TableWriter where
  pieces : List Bytes := []
  strings : StringHeap := {}
  blobs : BlobHeap := {}

def TableWriter.rows (state : TableWriter) : Bytes := state.pieces.reverse.flatten

abbrev WriteTables := StateT TableWriter Result

namespace WriteTables

def put (bytes : Bytes) : WriteTables Unit :=
  modify fun state => { state with pieces := bytes :: state.pieces }

def word (value : Nat) : WriteTables Unit := put (Bytes.littleEndian 4 value)

def half (value : Nat) : WriteTables Unit := put (Bytes.littleEndian 2 value)

def token (value : Token) : WriteTables Unit := word value.value.toNat

/-- A missing token is written as zero. -/
def optionalToken (value : Option Token) : WriteTables Unit := word ((value.map (·.value.toNat)).getD 0)

def string (value : String) : WriteTables Unit := do
  let (offset, strings) ← (← get).strings.add value
  modify fun state => { state with strings }
  word offset

def blob (bytes : Result Bytes) : WriteTables Unit := do
  let (offset, blobs) ← (← get).blobs.add (← bytes)
  modify fun state => { state with blobs }
  word offset

def count (length : Nat) : WriteTables Unit :=
  if length < sizeLimit then word length else throw (.malformed .countRange)

def strings (values : List String) : WriteTables Unit := do
  count values.length
  values.forM string

def tokens (values : List Token) : WriteTables Unit := do
  count values.length
  values.forM token

def scope : Scope → WriteTables Unit
  | .assembly name => do
    put [0]
    string name
  | .nested enclosing => do
    put [1]
    token enclosing

def typeName (name : TypeName) : WriteTables Unit := do
  string name.space
  string name.simple

def typeRef (row : TypeRef) : WriteTables Unit := do
  scope row.scope
  typeName row.name

def typeDef (row : TypeDef) : WriteTables Unit := do
  word row.flags.toNat
  typeName row.name
  optionalToken row.base
  optionalToken row.enclosing
  strings row.generics
  tokens row.fields
  tokens row.methods

def field (row : FieldDef) : WriteTables Unit := do
  token row.owner
  half row.flags.toNat
  string row.name
  blob row.type.encodeField

/-- Stands for the offset of a body where there is none. -/
def noBody : Nat := 0xFFFFFFFF

def method (bodyOffset : Nat) (row : MethodDef) : WriteTables Unit := do
  token row.owner
  half row.flags.bits.toNat
  half row.implFlags.toNat
  string row.name
  blob row.sig.encode
  strings row.generics
  word bodyOffset

def memberRef (row : MemberRef) : WriteTables Unit := do
  token row.parent
  string row.name
  blob row.sig.encode

def customAttribute (row : CustomAttribute) : WriteTables Unit := do
  token row.parent
  token row.constructor
  blob row.value.encode

def methodSpec (row : MethodSpec) : WriteTables Unit := do
  token row.method
  blob (TypeSig.encodeMethodInstantiation row.args)

/-- The rows of one table. Body offsets are given by method. -/
def table (module : Module) (bodyOffset : Token → Nat) : Table → WriteTables Unit
  | .typeRef => module.typeRefs.toList.forM typeRef
  | .typeDef => module.typeDefs.toList.forM typeDef
  | .field => module.fields.toList.forM field
  | .methodDef => (module.methodTokens.zip module.methods.toList).forM fun (token, row) =>
      method (bodyOffset token) row
  | .memberRef => module.memberRefs.toList.forM memberRef
  | .customAttribute => module.attributes.toList.forM customAttribute
  | .standAloneSig => module.locals.toList.forM fun row => blob (TypeSig.encodeLocals row.types)
  | .typeSpec => module.typeSpecs.toList.forM fun row => blob row.sig.encode
  | .methodSpec => module.methodSpecs.toList.forM methodSpec

/-- The number of tables with rows, the number of rows of each, and the rows. -/
def all (module : Module) (bodyOffset : Token → Nat) : WriteTables Unit := do
  let present := Table.all.filter fun table => 0 < module.rowCount table
  put [.ofNat present.length]
  present.forM fun table => do
    put [.ofNat table.code]
    count (module.rowCount table)
  present.forM (table module bodyOffset)

end WriteTables

/-- Lays out bodies from an offset on that is a multiple of four, as the offset of each body then
is, and tells the offsets. -/
def layBodies : Nat → Bodies → Result (Bytes × List (Token × Nat))
  | _, [] => .ok ([], [])
  | start, (token, body) :: rest =>
    if start < sizeLimit then do
      let padded := body.bytes.padToFour 0
      let (bytes, offsets) ← layBodies (start + padded.length) rest
      return (padded ++ bytes, (token, start) :: offsets)
    else malformed .bodySectionSize

def checkCount (length : Nat) : Result Nat :=
  if length < sizeLimit then .ok length else malformed .countRange

def writeImage (module : Module) (bodies : Bodies) : Result Bytes := do
  let (nameOffset, strings) ← StringHeap.add {} module.name
  let (bodyBytes, offsets) ← layBodies 0 bodies
  let userStrings ← module.userStrings.toList.foldlM
    (fun heap value => return (← UserStringHeap.add heap value).2) {}
  let bodyOffset (token : Token) := (offsets.lookup token).getD WriteTables.noBody
  let ((), written) ← (WriteTables.all module bodyOffset).run { strings }
  let tables := written.rows.padToFour 0
  let sections := [tables, written.strings.finish, written.blobs.finish, userStrings.finish, bodyBytes]
  let sizes ← sections.mapM fun bytes => checkCount bytes.length
  let header : Header := {
    version := imageVersion
    versionId := module.versionId
    nameOffset
    sections := {
      tables := sizes.getD 0 0
      strings := sizes.getD 1 0
      blobs := sizes.getD 2 0
      userStrings := sizes.getD 3 0
      bodies := sizes.getD 4 0 } }
  return header.encode ++ sections.flatten

/-- The source span of an instruction, if it has one, at the offset of the instruction. -/
def instructionPoint (documents : Nat) (token : Token) (code : Code.EncodedCode) (index : Nat)
    (instruction : Code.Instruction) : Result (Option (Nat × Code.SequencePoint)) :=
  match instruction.point with
  | none => .ok none
  | some point =>
    if documents ≤ point.document.toNat then malformed (.unknownDocument token point.document)
    else
      match code.offsetOf? index with
      | some offset => .ok (some (offset, point))
      | none => malformed (.missingOffset index token)

/-- The source spans of a body at the offsets of its encoded code. -/
def methodPoints (documents : Nat) (token : Token) (body : Body) (code : Code.EncodedCode) :
    Result (List (Nat × Code.SequencePoint)) := do
  let points ← body.instructions.zipIdx.mapM fun (instruction, index) =>
    instructionPoint documents token code index instruction
  return points.filterMap id

/-- The source spans of a method. A token that names no body has none. -/
def methodSymbols (module : Module) (token : Token) (code : Code.EncodedCode) : Result MethodSymbols :=
  match (module.method? token).bind (·.body) with
  | none => .ok ⟨token, []⟩
  | some body => return ⟨token, ← methodPoints module.documents.size token body code⟩

def checkSymbolCount (length : Nat) : Result Unit :=
  if length < sizeLimit then .ok () else malformed .symbolCount

/-- The symbols of a module whose bodies were encoded, for an image with the given digest. Bodies of
methods that the module does not have are left out. -/
def symbolFile (module : Module) (codes : List (Token × Code.EncodedCode)) (digest : Digest) :
    Result SymbolFile := do
  let documents := module.documents.toList
  checkSymbolCount documents.length
  documents.forM fun name => checkSymbolCount (Bytes.ofText name).length
  let methods ← codes.mapM fun (token, code) => methodSymbols module token code
  let methods := methods.filter fun symbols => !symbols.points.isEmpty
  checkSymbolCount methods.length
  methods.forM fun symbols => checkSymbolCount symbols.points.length
  return { digest, versionId := module.versionId, documents, methods }

structure Written where
  image : Bytes
  symbols : Bytes
  digest : Digest
  deriving DecidableEq, Repr

def write (module : Module) : Result Written := do
  checkStackDepths module
  let bodies ← encodeBodies module
  let image ← writeImage module bodies
  let digest := Sha1.digest image
  let file ← symbolFile module (bodies.map fun (token, body) => (token, body.code)) digest
  return ⟨image, file.encode, digest⟩

end HotPatch.Image
