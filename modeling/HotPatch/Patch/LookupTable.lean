import HotPatch.Module.Import
import HotPatch.Patch.Marks
import HotPatch.Patch.Wrapper

/-!
# The lookup table

The lookup method builds a dictionary from the base module's references, as the
patch imports them, to the wrappers. Its body creates the dictionary, adds one
entry after another and returns it; the table can be read back from that body.
-/

namespace HotPatch

structure LookupEntry where
  base : Token
  wrapper : Token
  deriving DecidableEq, Repr

def findLookupMethod (config : Config) (module : Module) : Result Token := do
  let container ← findContainer config module
  match module.findMethod? container config.lookupMethod with
  | some method => return method
  | none => .error (.lookupMethodMissing (.method config.wrapperType config.lookupMethod))

namespace LookupTable

/-- Whether the type is a class with two generic arguments. -/
def isDictionary : TypeSig → Bool
  | .generic (.class _) args => args.length == 2
  | _ => false

/-- The type of the dictionary that the lookup method returns. -/
def dictionaryType (config : Config) (module : Module) (method : Token) : Result TypeSig := do
  let row ← Module.require (module.method? method) method
  if isDictionary row.sig.returnType then return row.sig.returnType
  else .error (.lookupMethodMissing
    (.returnType config.wrapperType config.lookupMethod row.sig.returnType))

/-- All instantiations with their wrappers, record by record. -/
def pending (records : List GenericRecord) : Result (List LookupEntry) := do
  let entries ← records.mapM fun record =>
    record.instantiations.zipIdx.mapM fun (inst, position) =>
      return LookupEntry.mk inst.base (← requireWrapper record position inst)
  return entries.flatten

/-- Imports the keys. Two references that turn into the same one cannot both be keys. -/
def importKeys (base : Module) : List LookupEntry → List LookupEntry → Edit (List LookupEntry)
  | done, [] => return done
  | done, entry :: rest => do
    let key ← base.importMethod entry.base
    if done.any (·.base == key) then throw (.duplicateInstantiation entry.base)
    else importKeys base (done ++ [⟨key, entry.wrapper⟩]) rest

def addSig : MethodSig := { hasThis := true, params := [.typeParam 0, .typeParam 1] }

/-- Adds one entry to the dictionary on the stack. -/
def emitEntry (add : Token) (asm : Code.Assembler) (entry : LookupEntry) : Result Code.Assembler := do
  let asm ← asm.dup
  let asm ← asm.ldtoken entry.base
  let asm ← asm.ldtoken entry.wrapper
  asm.callvirt add addSig

/-- The body of the lookup method. -/
def body (constructor add : Token) (entries : List LookupEntry) : Result Body := do
  let asm ← Code.Assembler.newobj {} constructor SupportType.constructorSig
  let asm ← entries.foldlM (emitEntry add) asm
  let (instructions, maxStack) ← (← asm.ret).finish
  return { instructions, maxStack := .ofNat maxStack }

/-- Gives the lookup method its body and answers the entries. -/
def emit (config : Config) (base : Module) (records : List GenericRecord) : Edit (List LookupEntry) := do
  let method ← Edit.inspect (findLookupMethod config)
  let dictionary ← Edit.inspect fun module => dictionaryType config module method
  let pending ← Edit.inspect fun _ => pending records
  let entries ← importKeys base [] pending
  let parent ← Edit.always (·.addTypeSpec dictionary)
  let constructor ← Edit.always
    (·.addMemberRef ⟨parent, MethodDef.constructorName, SupportType.constructorSig⟩)
  let add ← Edit.always (·.addMemberRef ⟨parent, "Add", addSig⟩)
  let body ← Edit.inspect fun _ => body constructor add entries
  Edit.attempt fun module =>
    match module.modifyMethod? method fun row => { row with body := some body } with
    | some module => .ok ((), module)
    | none => .error (.tokenNotFound method)
  return entries

/-- Reads entries off the instructions between creation and return. -/
def readEntries : List Code.Instruction → Option (List LookupEntry)
  | [] => some []
  | dup :: key :: value :: add :: rest => do
    if dup.opcode = .dup ∧ key.opcode = .ldtoken ∧ value.opcode = .ldtoken ∧ add.opcode = .callvirt then
      let base ← key.token?
      let wrapper ← value.token?
      return ⟨base, wrapper⟩ :: (← readEntries rest)
    else none
  | _ => none

def readBody (instructions : List Code.Instruction) : Option (List LookupEntry) :=
  match instructions with
  | first :: rest =>
    match rest.getLast? with
    | some last => if first.opcode = .newobj ∧ last.opcode = .ret then readEntries rest.dropLast else none
    | none => none
  | [] => none

/-- The entries that the lookup method adds. -/
def read (config : Config) (module : Module) : Result (List LookupEntry) := do
  let method ← findLookupMethod config module
  match (module.method? method).bind (·.body) with
  | none => malformed .missingTableBody
  | some body =>
    match readBody body.instructions with
    | some entries => return entries
    | none => malformed .tableShape

end LookupTable
end HotPatch
