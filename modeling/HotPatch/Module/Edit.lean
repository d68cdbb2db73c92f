import HotPatch.Module.Names

/-!
# Changing a module

Rows are appended. References, specifications, user strings and documents are
shared: adding one that is there already answers the old token. A definition
needs its owner, and an attribute its target and constructor. Other changes
replace the contents of a method or a type, never its token.
-/

namespace HotPatch

/-- Finds an equal row or appends one, and tells its number. -/
def shareRow {α : Type} [DecidableEq α] (rows : Array α) (row : α) : Nat × Array α :=
  match rows.findIdx? (· == row) with
  | some index => (index + 1, rows)
  | none => (rows.size + 1, rows.push row)

/-- A change that may fail half-way: the module is kept as it is at that point. -/
abbrev Edit (α : Type) := ExceptT Error (StateM Module) α

namespace Module

variable (module : Module)

def addTypeRef (row : TypeRef) : Token × Module :=
  let (number, rows) := shareRow module.typeRefs row
  (.ofRow .typeRef number, { module with typeRefs := rows })

def addMemberRef (row : MemberRef) : Token × Module :=
  let (number, rows) := shareRow module.memberRefs row
  (.ofRow .memberRef number, { module with memberRefs := rows })

def addTypeSpec (sig : TypeSig) : Token × Module :=
  let (number, rows) := shareRow module.typeSpecs ⟨sig⟩
  (.ofRow .typeSpec number, { module with typeSpecs := rows })

def addMethodSpec (row : MethodSpec) : Token × Module :=
  let (number, rows) := shareRow module.methodSpecs row
  (.ofRow .methodSpec number, { module with methodSpecs := rows })

def addUserString (value : String) : Token × Module :=
  let (number, rows) := shareRow module.userStrings value
  (.ofCode userStringCode number, { module with userStrings := rows })

/-- Documents are counted from zero. -/
def addDocument (name : String) : Nat × Module :=
  let (number, rows) := shareRow module.documents name
  (number - 1, { module with documents := rows })

/-- Lists of local variables are not shared. -/
def addLocals (types : List TypeSig) : Token × Module :=
  (.ofRow .standAloneSig (module.locals.size + 1), { module with locals := module.locals.push ⟨types⟩ })

/-- Replaces the contents of a type definition. -/
def modifyType? (token : Token) (change : TypeDef → TypeDef) : Option Module :=
  (module.typeDef? token).map fun type =>
    { module with typeDefs := module.typeDefs.set! (token.row - 1) (change type) }

/-- Replaces the contents of a method definition. -/
def modifyMethod? (token : Token) (change : MethodDef → MethodDef) : Option Module :=
  (module.method? token).map fun method =>
    { module with methods := module.methods.set! (token.row - 1) (change method) }

/-- A new type must stand in an existing one, if in any, and derive from a type with a name or from
a type specification. -/
def addType (row : TypeDef) : Result (Token × Module) :=
  match row.enclosing.filter fun enclosing => (module.typeDef? enclosing).isNone with
  | some enclosing => .error (.tokenNotFound enclosing)
  | none =>
    match row.base.filter fun base => !(module.fullName base).isOk && (module.typeSpec? base).isNone with
    | some base => .error (.tokenNotFound base)
    | none =>
      .ok (.ofRow .typeDef (module.typeDefs.size + 1),
        { module with typeDefs := module.typeDefs.push { row with fields := [], methods := [] } })

def addField (row : FieldDef) : Result (Token × Module) :=
  let token := Token.ofRow .field (module.fields.size + 1)
  match module.modifyType? row.owner fun type => { type with fields := type.fields ++ [token] } with
  | some listed => .ok (token, { listed with fields := module.fields.push row })
  | none => .error (.tokenNotFound row.owner)

/-- Adds a method whose signature agrees with its flags and generic parameters. -/
def addMethod (row : MethodDef) : Result (Token × Module) :=
  let token := Token.ofRow .methodDef (module.methods.size + 1)
  match module.modifyType? row.owner fun type => { type with methods := type.methods ++ [token] } with
  | some listed => .ok (token, { listed with methods := module.methods.push row.normalized })
  | none => .error (.tokenNotFound row.owner)

def addAttribute (row : CustomAttribute) : Result (Token × Module) :=
  if !module.contains row.parent then .error (.tokenNotFound row.parent)
  else if (row.constructor.isIn .methodDef || row.constructor.isIn .memberRef) &&
      module.contains row.constructor then
    .ok (.ofRow .customAttribute (module.attributes.size + 1),
      { module with attributes := module.attributes.push row })
  else .error (.tokenNotFound row.constructor)

end Module

namespace Edit

/-- A single change that either happens or leaves the module alone. -/
def attempt {α : Type} (change : Module → Result (α × Module)) : Edit α := fun module =>
  match change module with
  | .ok (value, next) => (.ok value, next)
  | .error error => (.error error, module)

/-- A change that cannot fail. -/
def always {α : Type} (change : Module → α × Module) : Edit α := fun module =>
  let (value, next) := change module
  (.ok value, next)

/-- Looks without changing. -/
def inspect {α : Type} (look : Module → Result α) : Edit α := fun module => (look module, module)

end Edit
end HotPatch
