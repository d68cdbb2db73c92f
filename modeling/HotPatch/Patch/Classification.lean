import HotPatch.Module.Names
import HotPatch.TokenSet

/-!
# Classification of methods

A method is unchanged, can be fixed in place, or has to be hooked. Of several
verdicts on a method the strongest counts, so the order in which they are
recorded does not matter. The map lists its methods in token order.
-/

namespace HotPatch

inductive Classification where
  | unchanged | fix | hook
  deriving DecidableEq, Repr, Inhabited

namespace Classification

def all : List Classification := [unchanged, fix, hook]

def name : Classification → String
  | unchanged => "Unchanged"
  | fix => "IlFix"
  | hook => "Hook"

def rank : Classification → Nat
  | unchanged => 0
  | fix => 1
  | hook => 2

/-- The stronger of two verdicts. -/
def merge (a b : Classification) : Classification := if a.rank ≤ b.rank then b else a

/-- Whether the type of the method is affected. -/
def touchesType (kind : Classification) : Bool := kind != unchanged

end Classification

structure ClassificationMap where
  entries : List (Token × Classification) := []
  deriving DecidableEq, Repr

namespace ClassificationMap

/-- Adds a verdict to entries in token order. -/
def recordEntry (method : Token) (kind : Classification) :
    List (Token × Classification) → List (Token × Classification)
  | [] => [(method, kind)]
  | (first, old) :: rest =>
    if method = first then (first, old.merge kind) :: rest
    else if method.value < first.value then (method, kind) :: (first, old) :: rest
    else (first, old) :: recordEntry method kind rest

def record (map : ClassificationMap) (method : Token) (kind : Classification) : ClassificationMap :=
  ⟨recordEntry method kind map.entries⟩

/-- The map of verdicts recorded one after another. -/
def ofList (verdicts : List (Token × Classification)) : ClassificationMap :=
  verdicts.foldl (fun map (method, kind) => map.record method kind) {}

def find? (map : ClassificationMap) (method : Token) : Option Classification :=
  (map.entries.find? (·.1 == method)).map (·.2)

/-- A method without a verdict counts as unchanged. -/
def get (map : ClassificationMap) (method : Token) : Classification := (map.find? method).getD .unchanged

def contains (map : ClassificationMap) (method : Token) : Bool := (map.find? method).isSome

def size (map : ClassificationMap) : Nat := map.entries.length

def count (map : ClassificationMap) (kind : Classification) : Nat :=
  map.entries.countP (·.2 == kind)

/-- The methods with the given verdict, in token order. -/
def methods (map : ClassificationMap) (kind : Classification) : List Token :=
  (map.entries.filter (·.2 == kind)).map (·.1)

/-- The types, in a module, of the methods that affect their types. -/
def touchedTypes (map : ClassificationMap) (module : Module) : TokenSet :=
  .ofList ((map.entries.filter (·.2.touchesType)).filterMap fun (method, _) => module.methodOwner? method)

/-- One line for each method. A method without a name is listed by its token. -/
def listing (map : ClassificationMap) (module : Module) (changed : List Token) : String :=
  String.join (map.entries.map fun (method, kind) =>
    module.methodLabel method ++ (if changed.contains method then " [Changed]" else "") ++
      (match kind with
        | .hook => " [Hook]"
        | .fix => " [Fix]"
        | .unchanged => "") ++ "\n")

end ClassificationMap
end HotPatch
