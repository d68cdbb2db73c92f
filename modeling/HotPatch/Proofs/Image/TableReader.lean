import HotPatch.Image.Write
import HotPatch.Proofs.Image.HeapContents

/-!
# Reading tables

A reader of the table section that knows the layout only: the directory of the
tables with their numbers of rows, and then row after row. A name or a blob is
looked up in its heap at the offset that the row holds. Signatures and values
are left as the bytes of their blobs.
-/

namespace HotPatch

/-- The type as it is stored, where a null token is the same as none. -/
def TypeDef.stored (type : TypeDef) : TypeDef :=
  { type with base := type.base.filter (!·.isNull), enclosing := type.enclosing.filter (!·.isNull) }

namespace Image

/-- The heaps that rows refer to. -/
structure Heaps where
  strings : Bytes
  blobs : Bytes

structure StoredField where
  owner : Token
  flags : UInt16
  name : String
  signature : Bytes

structure StoredMethod where
  owner : Token
  flags : MethodFlags
  implFlags : UInt16
  name : String
  signature : Bytes
  generics : List String
  bodyOffset : Nat

structure StoredMember where
  parent : Token
  name : String
  signature : Bytes

structure StoredAttribute where
  parent : Token
  constructor : Token
  value : Bytes

structure StoredInstantiation where
  method : Token
  args : Bytes

/-- A row as it is read. -/
inductive StoredRow where
  | typeRef (row : TypeRef)
  | typeDef (row : TypeDef)
  | field (row : StoredField)
  | methodDef (row : StoredMethod)
  | memberRef (row : StoredMember)
  | customAttribute (row : StoredAttribute)
  | locals (types : Bytes)
  | typeSpec (signature : Bytes)
  | methodSpec (row : StoredInstantiation)

/-- What is found for a row: its columns, and the blobs of its signatures. A predicate tells where the
body of a method may be. -/
inductive StoredAs (placed : MethodDef → Nat → Prop) : Row → StoredRow → Prop where
  | typeRef (row : TypeRef) : StoredAs placed (.typeRef row) (.typeRef row)
  | typeDef (row : TypeDef) : StoredAs placed (.typeDef row) (.typeDef row.stored)
  | field {row : FieldDef} {signature : Bytes} (encoded : row.type.encodeField = .ok signature) :
    StoredAs placed (.field row) (.field ⟨row.owner, row.flags, row.name, signature⟩)
  | methodDef {row : MethodDef} {signature : Bytes} {bodyOffset : Nat} (encoded : row.sig.encode = .ok signature)
    (body : placed row bodyOffset) : StoredAs placed (.methodDef row)
      (.methodDef ⟨row.owner, row.flags, row.implFlags, row.name, signature, row.generics, bodyOffset⟩)
  | memberRef {row : MemberRef} {signature : Bytes} (encoded : row.sig.encode = .ok signature) :
    StoredAs placed (.memberRef row) (.memberRef ⟨row.parent, row.name, signature⟩)
  | customAttribute {row : CustomAttribute} {value : Bytes} (encoded : row.value.encode = .ok value) :
    StoredAs placed (.customAttribute row) (.customAttribute ⟨row.parent, row.constructor, value⟩)
  | locals {row : LocalsSig} {types : Bytes} (encoded : TypeSig.encodeLocals row.types = .ok types) :
    StoredAs placed (.locals row) (.locals types)
  | typeSpec {row : TypeSpec} {signature : Bytes} (encoded : row.sig.encode = .ok signature) :
    StoredAs placed (.typeSpec row) (.typeSpec signature)
  | methodSpec {row : MethodSpec} {args : Bytes} (encoded : TypeSig.encodeMethodInstantiation row.args = .ok args) :
    StoredAs placed (.methodSpec row) (.methodSpec ⟨row.method, args⟩)

/-- The rows of a table in the order of their tokens. -/
def rowsOf (module : Module) : Table → List Row
  | .typeRef => module.typeRefs.toList.map .typeRef
  | .typeDef => module.typeDefs.toList.map .typeDef
  | .field => module.fields.toList.map .field
  | .methodDef => module.methods.toList.map .methodDef
  | .memberRef => module.memberRefs.toList.map .memberRef
  | .customAttribute => module.attributes.toList.map .customAttribute
  | .standAloneSig => module.locals.toList.map .locals
  | .typeSpec => module.typeSpecs.toList.map .typeSpec
  | .methodSpec => module.methodSpecs.toList.map .methodSpec

namespace Heaps

def token : Reader Token := return ⟨.ofNat (← Reader.number 4)⟩

/-- Zero stands for no token. -/
def optionalToken : Reader (Option Token) := do
  let token ← token
  return if token.isNull then none else some token

variable (heaps : Heaps)

/-- The string at the offset that stands here. -/
def name : Reader String := do
  let offset ← Reader.number 4
  StateT.lift (Header.textAt heaps.strings offset)

/-- The blob at the offset that stands here. -/
def blob : Reader Bytes := do
  let offset ← Reader.number 4
  match blobAt? heaps.blobs offset with
  | some blob => return blob
  | none => throw .outOfBounds

def names : Reader (List String) := Reader.counted heaps.name

def tokens : Reader (List Token) := Reader.counted token

def typeName : Reader TypeName := do
  let space ← heaps.name
  let simple ← heaps.name
  return { space, simple }

def scope : Reader Scope := do
  let kind ← Reader.number 1
  if kind = 0 then
    let name ← heaps.name
    return .assembly name
  else
    let enclosing ← token
    return .nested enclosing

def typeRef : Reader TypeRef := do
  let scope ← heaps.scope
  let name ← heaps.typeName
  return { scope, name }

def typeDef : Reader TypeDef := do
  let flags ← Reader.number 4
  let name ← heaps.typeName
  let base ← optionalToken
  let enclosing ← optionalToken
  let generics ← heaps.names
  let fields ← tokens
  let methods ← tokens
  return { flags := .ofNat flags, name, base, enclosing, generics, fields, methods }

def field : Reader StoredField := do
  let owner ← token
  let flags ← Reader.number 2
  let name ← heaps.name
  let signature ← heaps.blob
  return { owner, flags := .ofNat flags, name, signature }

def method : Reader StoredMethod := do
  let owner ← token
  let flags ← Reader.number 2
  let implFlags ← Reader.number 2
  let name ← heaps.name
  let signature ← heaps.blob
  let generics ← heaps.names
  let bodyOffset ← Reader.number 4
  return { owner, flags := ⟨.ofNat flags⟩, implFlags := .ofNat implFlags, name, signature, generics, bodyOffset }

def memberRef : Reader StoredMember := do
  let parent ← token
  let name ← heaps.name
  let signature ← heaps.blob
  return { parent, name, signature }

def customAttribute : Reader StoredAttribute := do
  let parent ← token
  let constructor ← token
  let value ← heaps.blob
  return { parent, constructor, value }

def methodSpec : Reader StoredInstantiation := do
  let method ← token
  let args ← heaps.blob
  return { method, args }

/-- A row of the given table. -/
def row : Table → Reader StoredRow
  | .typeRef => do
    let row ← heaps.typeRef
    return .typeRef row
  | .typeDef => do
    let row ← heaps.typeDef
    return .typeDef row
  | .field => do
    let row ← heaps.field
    return .field row
  | .methodDef => do
    let row ← heaps.method
    return .methodDef row
  | .memberRef => do
    let row ← heaps.memberRef
    return .memberRef row
  | .customAttribute => do
    let row ← heaps.customAttribute
    return .customAttribute row
  | .standAloneSig => do
    let types ← heaps.blob
    return .locals types
  | .typeSpec => do
    let signature ← heaps.blob
    return .typeSpec signature
  | .methodSpec => do
    let row ← heaps.methodSpec
    return .methodSpec row

/-- A table with its number of rows. -/
def directoryEntry : Reader (Table × Nat) := do
  let code ← Reader.number 1
  match Table.ofCode? code with
  | some table =>
    let count ← Reader.number 4
    return (table, count)
  | none => throw .outOfBounds

def table (entry : Table × Nat) : Reader (Table × List StoredRow) := do
  let rows ← Reader.times entry.2 (heaps.row entry.1)
  return (entry.1, rows)

/-- All tables that have rows, with their rows. -/
def tables : Reader (List (Table × List StoredRow)) := do
  let present ← Reader.number 1
  let directory ← Reader.times present directoryEntry
  directory.mapM heaps.table

end Heaps
end Image
end HotPatch
