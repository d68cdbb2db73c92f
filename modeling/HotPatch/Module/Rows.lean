import HotPatch.Attribute.Basic
import HotPatch.Body.Basic
import HotPatch.Signature.Basic

/-!
# Rows of a module

One structure per metadata table. A row does not hold its own token: the token
follows from the position in the table. Flags are kept as given; only the bits
with a meaning here have names.
-/

namespace HotPatch

/-- A name behind the name of the space that it belongs to, which may be empty. -/
structure TypeName where
  space : String
  simple : String
  deriving DecidableEq, Repr, Inhabited

def TypeName.text (name : TypeName) : String :=
  if name.space = "" then name.simple else name.space ++ "." ++ name.simple

/-- Where a foreign type is found: in an assembly, or inside another foreign type. -/
inductive Scope where
  | assembly (name : String)
  | nested (enclosing : Token)
  deriving DecidableEq, Repr

structure TypeRef where
  scope : Scope
  name : TypeName
  deriving DecidableEq, Repr

structure TypeDef where
  name : TypeName
  flags : UInt32 := 0
  base : Option Token := none
  enclosing : Option Token := none
  generics : List String := []
  fields : List Token := []
  methods : List Token := []
  deriving DecidableEq, Repr

def TypeDef.isGeneric (type : TypeDef) : Bool := !type.generics.isEmpty

structure FieldDef where
  owner : Token
  name : String
  flags : UInt16
  type : TypeSig
  deriving DecidableEq, Repr

structure MethodFlags where
  bits : UInt16
  deriving DecidableEq, Repr, Inhabited

namespace MethodFlags

def privateAccess : MethodFlags := ⟨0x0001⟩
def publicAccess : MethodFlags := ⟨0x0006⟩
def static : MethodFlags := ⟨0x0010⟩
def hideBySig : MethodFlags := ⟨0x0080⟩
def specialName : MethodFlags := ⟨0x0800⟩
def runtimeName : MethodFlags := ⟨0x1000⟩

def union (a b : MethodFlags) : MethodFlags := ⟨a.bits ||| b.bits⟩

def contains (flags part : MethodFlags) : Bool := flags.bits &&& part.bits == part.bits

/-- The flags of a static initializer. -/
def typeInitializer : MethodFlags :=
  [MethodFlags.static, hideBySig, specialName, runtimeName].foldl union privateAccess

/-- The flags of a generated wrapper. -/
def wrapper : MethodFlags := [MethodFlags.static, hideBySig].foldl union publicAccess

end MethodFlags

structure MethodDef where
  owner : Token
  name : String
  flags : MethodFlags := ⟨0⟩
  implFlags : UInt16 := 0
  sig : MethodSig := {}
  generics : List String := []
  body : Option Body := none
  deriving DecidableEq, Repr

namespace MethodDef

def isStatic (method : MethodDef) : Bool := method.flags.contains .static

/-- The name that marks a static initializer. -/
def initializerName : String := ".cctor"

/-- The name that marks a constructor. -/
def constructorName : String := ".ctor"

def isStaticInitializer (method : MethodDef) : Bool := method.name == initializerName && method.isStatic

def isGeneric (method : MethodDef) : Bool := !method.generics.isEmpty

/-- Whether there is code to run. -/
def hasBody (method : MethodDef) : Bool := method.body.any fun body => !body.instructions.isEmpty

/-- The method with the receiver and the generic count of its signature taken from flags and
parameter list. -/
def normalized (method : MethodDef) : MethodDef :=
  { method with sig :=
    { method.sig with hasThis := !method.isStatic, genericCount := method.generics.length } }

end MethodDef

structure MemberRef where
  parent : Token
  name : String
  sig : MethodSig
  deriving DecidableEq, Repr

structure CustomAttribute where
  parent : Token
  constructor : Token
  value : Attribute.Value
  deriving Repr

structure TypeSpec where
  sig : TypeSig
  deriving DecidableEq, Repr

structure MethodSpec where
  method : Token
  args : List TypeSig
  deriving DecidableEq, Repr

/-- The types of the local variables of a body. -/
structure LocalsSig where
  types : List TypeSig
  deriving DecidableEq, Repr

/-- A row of any table. -/
inductive Row where
  | typeRef (row : TypeRef)
  | typeDef (row : TypeDef)
  | field (row : FieldDef)
  | methodDef (row : MethodDef)
  | memberRef (row : MemberRef)
  | customAttribute (row : CustomAttribute)
  | locals (row : LocalsSig)
  | typeSpec (row : TypeSpec)
  | methodSpec (row : MethodSpec)
  deriving Repr

end HotPatch
