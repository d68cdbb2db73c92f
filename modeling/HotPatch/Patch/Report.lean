import HotPatch.Patch.Classification
import HotPatch.Patch.LookupTable

/-!
# Reports
-/

namespace HotPatch

/-- What a patch did to a module. -/
structure Report where
  module : String
  hooked : List String := []
  fixed : List String := []
  neutralized : List Token := []
  wrappers : Nat := 0
  marks : Nat := 0
  entries : List LookupEntry := []
  deriving DecidableEq, Repr

namespace Report

/-- The report after the methods of a module were classified. -/
def ofClassification (name : String) (module : Module) (map : ClassificationMap) : Report where
  module := name
  hooked := (map.methods .hook).map module.methodLabel
  fixed := (map.methods .fix).map module.methodLabel

/-- Whether no method needs to be replaced. -/
def isEmpty (report : Report) : Bool :=
  report.hooked.isEmpty && report.fixed.isEmpty && report.wrappers == 0

def text (report : Report) : String :=
  s!"{report.module}: {report.hooked.length} hooked, {report.fixed.length} fixed, {report.neutralized.length} initializers neutralized, {report.wrappers} wrappers, {report.entries.length} table entries"

end Report
end HotPatch
