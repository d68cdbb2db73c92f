import HotPatch.Module.Edit

/-!
# Importing references into another module

A type of the source becomes a reference in the target: a definition is scoped
to the source itself, a reference to where it was scoped before, and both to
the import of their enclosing type, if they have one. Signatures are imported
token by token. A method becomes a member of its imported owner; one that is
declared on a generic type has no such form. The number of levels is bounded.
-/

namespace HotPatch.Module

variable (source : Module)

mutual

/-- Imports a type with at most the given number of levels. -/
def importTypeWithin : Nat → Token → Edit Token
  | 0, _ => throw (.recursionLimit levelLimit)
  | levels + 1, token => do
    match token.table? with
    | some .typeDef =>
      let row ← Edit.inspect fun _ => require (source.typeDef? token) token
      let scope ← match row.enclosing with
        | some enclosing => Scope.nested <$> importTypeWithin levels enclosing
        | none => pure (.assembly source.name)
      Edit.always (·.addTypeRef ⟨scope, row.name⟩)
    | some .typeRef =>
      let row ← Edit.inspect fun _ => require (source.typeRef? token) token
      let scope ← match row.scope with
        | .nested enclosing => Scope.nested <$> importTypeWithin levels enclosing
        | .assembly assembly => pure (.assembly assembly)
      Edit.always (·.addTypeRef ⟨scope, row.name⟩)
    | some .typeSpec =>
      let row ← Edit.inspect fun _ => require (source.typeSpec? token) token
      let sig ← importSigWithin levels row.sig
      Edit.always (·.addTypeSpec sig)
    | _ => throw (.tokenNotFound token)

/-- Imports a signature with at most the given number of levels. -/
def importSigWithin : Nat → TypeSig → Edit TypeSig
  | 0, _ => throw (.recursionLimit levelLimit)
  | levels + 1, sig => do
    match sig with
    | .class token => return .class (← importTypeWithin levels token)
    | .valueType token => return .valueType (← importTypeWithin levels token)
    | .generic base args =>
      let base ← importSigWithin levels base
      return .generic base (← args.mapM (importSigWithin levels))
    | .vector element => return .vector (← importSigWithin levels element)
    | .byRef target => return .byRef (← importSigWithin levels target)
    | .primitive _ | .typeParam _ | .methodParam _ => return sig

end

def importMethodSigWithin (levels : Nat) (sig : MethodSig) : Edit MethodSig := do
  let returnType ← source.importSigWithin levels sig.returnType
  let params ← sig.params.mapM (source.importSigWithin levels)
  return { sig with returnType, params }

/-- Imports a member of the parent, which may be any type. -/
def importMemberWithin (levels : Nat) (parent : Token) (name : String) (sig : MethodSig) : Edit Token := do
  let parent ← source.importTypeWithin levels parent
  let sig ← source.importMethodSigWithin levels sig
  Edit.always (·.addMemberRef ⟨parent, name, sig⟩)

/-- A method definition whose owner has no generic parameters. -/
def importableMethod (token : Token) : Result MethodDef := do
  let method ← require (source.method? token) token
  let owner ← require (source.typeDef? method.owner) method.owner
  if owner.isGeneric then .error (.notConcrete (.genericOwner (← source.methodFullName token)))
  else return method

/-- Imports a method with at most the given number of levels. -/
def importMethodWithin : Nat → Token → Edit Token
  | 0, _ => throw (.recursionLimit levelLimit)
  | levels + 1, token => do
    match token.table? with
    | some .methodDef =>
      let method ← Edit.inspect fun _ => source.importableMethod token
      source.importMemberWithin levels method.owner method.name method.sig
    | some .memberRef =>
      let row ← Edit.inspect fun _ => require (source.memberRef? token) token
      source.importMemberWithin levels row.parent row.name row.sig
    | some .methodSpec =>
      let row ← Edit.inspect fun _ => require (source.methodSpec? token) token
      let method ← importMethodWithin levels row.method
      let args ← row.args.mapM (source.importSigWithin levels)
      Edit.always (·.addMethodSpec ⟨method, args⟩)
    | _ => throw (.tokenNotFound token)

def importType (token : Token) : Edit Token := source.importTypeWithin (levelLimit + 1) token

def importSig (sig : TypeSig) : Edit TypeSig := source.importSigWithin (levelLimit + 1) sig

def importMethod (token : Token) : Edit Token := source.importMethodWithin (levelLimit + 1) token

end HotPatch.Module
