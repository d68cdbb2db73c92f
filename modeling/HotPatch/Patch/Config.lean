import HotPatch.Files.Publish

/-!
# Configuration of a patch
-/

namespace HotPatch

structure Config where
  /-- The full name of the type that holds wrappers and lookup method. -/
  wrapperType : String := "ScriptHotReload.__Patch_GenericInst_Wrapper__Gen__"
  lookupMethod : String := "GetGenericInstMethodForPatch"
  /-- What occurs in the names of types that hold closures. -/
  closureMarker : String := "<>c"
  supportModule : String := "ShareCode"
  indexAttribute : String := "ScriptHotReload.GenericMethodIndexAttribute"
  wrapperAttribute : String := "ScriptHotReload.GenericMethodWrapperAttribute"
  /-- How many calls away from a method its classification reaches. -/
  maxDepth : Nat := 10
  extensions : Extensions := ⟨"dll", "pdb"⟩
  deriving DecidableEq, Repr

namespace Config

def production : Config := {}

/-- Follows direct calls only. -/
def shallow : Config := { maxDepth := 1 }

/-- Where the symbols of an image are expected. -/
def symbolsPath (config : Config) (image : Path) : Result Path := do
  checkExtension config.extensions.symbols
  return image.withExtension config.extensions.symbols

end Config
end HotPatch
