import HotPatch.Error
import HotPatch.Module.Rows

/-!
# Modules

A module is a name, an identifier of sixteen bytes and its tables. A table only
grows at its end, so a token, once given out, names the same row for good. This
file holds the look-ups; `HotPatch.Module.Edit` holds the changes.
-/

namespace HotPatch

/-- The identifier of a module version. -/
abbrev VersionId := Vector UInt8 16

structure Module where
  name : String
  versionId : VersionId := .replicate 16 0
  typeRefs : Array TypeRef := #[]
  typeDefs : Array TypeDef := #[]
  fields : Array FieldDef := #[]
  methods : Array MethodDef := #[]
  memberRefs : Array MemberRef := #[]
  attributes : Array CustomAttribute := #[]
  locals : Array LocalsSig := #[]
  typeSpecs : Array TypeSpec := #[]
  methodSpecs : Array MethodSpec := #[]
  userStrings : Array String := #[]
  documents : Array String := #[]
  deriving Repr

/-- The row that a token names, if it belongs to the table. Rows are counted from one. -/
def rowAt? {α : Type} (table : Table) (rows : Array α) (token : Token) : Option α :=
  if token.isIn table ∧ token.row ≠ 0 then rows[token.row - 1]? else none

/-- The tokens of a table with the given number of rows. -/
def tableTokens (table : Table) (count : Nat) : List Token :=
  (List.range count).map fun index => .ofRow table (index + 1)

namespace Module

variable (module : Module) (token : Token)

def typeRef? : Option TypeRef := rowAt? .typeRef module.typeRefs token

def typeDef? : Option TypeDef := rowAt? .typeDef module.typeDefs token

def field? : Option FieldDef := rowAt? .field module.fields token

def method? : Option MethodDef := rowAt? .methodDef module.methods token

def memberRef? : Option MemberRef := rowAt? .memberRef module.memberRefs token

def attribute? : Option CustomAttribute := rowAt? .customAttribute module.attributes token

def locals? : Option LocalsSig := rowAt? .standAloneSig module.locals token

def typeSpec? : Option TypeSpec := rowAt? .typeSpec module.typeSpecs token

def methodSpec? : Option MethodSpec := rowAt? .methodSpec module.methodSpecs token

def userString? : Option String :=
  if token.tableCode = userStringCode ∧ token.row ≠ 0 then module.userStrings[token.row - 1]? else none

def rowCount : Table → Nat
  | .typeRef => module.typeRefs.size
  | .typeDef => module.typeDefs.size
  | .field => module.fields.size
  | .methodDef => module.methods.size
  | .memberRef => module.memberRefs.size
  | .customAttribute => module.attributes.size
  | .standAloneSig => module.locals.size
  | .typeSpec => module.typeSpecs.size
  | .methodSpec => module.methodSpecs.size

/-- The tokens of the rows of a table. -/
def tokens (table : Table) : List Token := tableTokens table (module.rowCount table)

def row? : Option Row := do
  match ← token.table? with
  | .typeRef => return .typeRef (← module.typeRef? token)
  | .typeDef => return .typeDef (← module.typeDef? token)
  | .field => return .field (← module.field? token)
  | .methodDef => return .methodDef (← module.method? token)
  | .memberRef => return .memberRef (← module.memberRef? token)
  | .customAttribute => return .customAttribute (← module.attribute? token)
  | .standAloneSig => return .locals (← module.locals? token)
  | .typeSpec => return .typeSpec (← module.typeSpec? token)
  | .methodSpec => return .methodSpec (← module.methodSpec? token)

/-- Whether the token names a row or a user string. -/
def contains : Bool :=
  token.row != 0 &&
    if token.tableCode = userStringCode then token.row ≤ module.userStrings.size
    else token.table?.any fun table => token.row ≤ module.rowCount table

def methodTokens : List Token := module.tokens .methodDef

def typeDefTokens : List Token := module.tokens .typeDef

/-- The attributes of a row, in table order. -/
def attributesOf : List CustomAttribute := module.attributes.toList.filter (·.parent == token)

/-- The tokens of these attributes. -/
def attributeTokens : List Token :=
  (module.tokens .customAttribute).filter fun row => (module.attribute? row).any (·.parent == token)

def methodOwner? : Option Token := (module.method? token).map (·.owner)

/-- The first method of a type with the given name. -/
def findMethod? (owner : Token) (name : String) : Option Token := do
  let type ← module.typeDef? owner
  type.methods.find? fun method => (module.method? method).any (·.name == name)

/-- The row, or the error that it is missing. -/
def require {α : Type} (row : Option α) (token : Token) : Result α :=
  match row with
  | some row => .ok row
  | none => .error (.tokenNotFound token)

/-- The signature of a called method. An instantiation is called like the method that it
instantiates; at most `fuel` instantiations are looked through. -/
def callSignatureWithin : Nat → Token → Result MethodSig
  | 0, token => .error (.tokenNotFound token)
  | fuel + 1, token =>
    match token.table? with
    | some .methodDef => (require (module.method? token) token).map (·.sig)
    | some .memberRef => (require (module.memberRef? token) token).map (·.sig)
    | some .methodSpec => do
      let spec ← require (module.methodSpec? token) token
      callSignatureWithin fuel spec.method
    | _ => .error (.tokenNotFound token)

/-- Without a cycle, a chain of instantiations has each row at most once. -/
def callSignature : Result MethodSig := module.callSignatureWithin (module.methodSpecs.size + 1) token

end Module
end HotPatch
