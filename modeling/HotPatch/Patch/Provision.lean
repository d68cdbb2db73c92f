import HotPatch.Patch.Session

/-!
# Collaborators that follow tables

What a comparison, a scan and a classification answer can be laid down in
advance, for one module or for several that are told apart by their names. The
generator of wrappers can be fixed in advance as well.
-/

namespace HotPatch

/-- The answers for one module. A text stands for a failure with that text. -/
structure Provision where
  pair : ModulePair
  /-- Why the versions cannot be patched, if they cannot. -/
  incompatible : Option String := none
  differFault : Option String := none
  scannerFault : Option String := none
  records : List GenericRecord := []
  prescriptions : List (Token × Prescription) := []

namespace Provision

def name (provision : Provision) : String := provision.pair.base.name

/-- Fails with a text, if there is one. -/
def answer {α : Type} (fault : Option String) (value : α) : Result α :=
  match fault with
  | some text => .error (.collaborator text)
  | none => .ok value

def outcome (provision : Provision) : Result DiffOutcome :=
  answer provision.differFault <|
    match provision.incompatible with
    | some reason => .incompatible reason
    | none => .pair provision.pair

def scan (provision : Provision) : Result (List GenericRecord) :=
  answer provision.scannerFault provision.records

end Provision

namespace Collaborators

/-- One module, whatever it is called. -/
def ofProvision (provision : Provision) (generator : WrapperGenerator) : Collaborators where
  differ _ := provision.outcome
  scanner _ := provision.scan
  classifier := .ofTable provision.prescriptions
  generator := generator

/-- The module with the name in question, which is an error if there is none. -/
def ofProvisions (provisions : List Provision) (generator : WrapperGenerator) : Collaborators where
  differ name :=
    match provisions.find? (·.name == name) with
    | some provision => provision.outcome
    | none => .error (.collaborator ("no module " ++ name))
  scanner pair :=
    match provisions.find? (·.name == pair.base.name) with
    | some provision => provision.scan
    | none => .ok []
  classifier method := .inspect fun state =>
    match provisions.find? (·.name == state.pair.base.name) with
    | some provision => Classifier.ofTable provision.prescriptions method
    | none => .done
  generator := generator

end Collaborators

namespace Wrapper

/-- Answers a method that is there already. -/
def existing (method : Token) : WrapperGenerator := fun _ => return method

/-- Fails and names the request. -/
def failing (text : String) : WrapperGenerator := fun request =>
  throw (.collaborator s!"{text} {request.method.text} {request.ordinal} {request.position}")

end Wrapper
end HotPatch
