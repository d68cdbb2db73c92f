/-!
# Paths

A path is the text that names a file. Slashes separate its segments; empty
segments and single dots do not count, except for a leading dot. The last
segment is the file name, unless it is a dot or two dots, and the part of the
name behind its last dot is the extension, unless nothing stands before that
dot.
-/

namespace HotPatch

structure Path where
  text : String
  deriving DecidableEq, Repr, Inhabited

namespace Path

/-- Cuts a text at every separator. -/
def cut (separator : Char) : List Char → List (List Char)
  | [] => [[]]
  | c :: rest =>
    match cut separator rest with
    | [] => [[c]]
    | part :: parts => if c = separator then [] :: part :: parts else (c :: part) :: parts

/-- What stands between the separators. -/
def names (path : Path) : List String := (cut '/' path.text.toList).map String.ofList

/-- The names without the empty ones that slashes at the end leave behind. -/
def bareNames (path : Path) : List String := (path.names.reverse.dropWhile (· = "")).reverse

def endsInSlash (path : Path) : Bool := path.text.endsWith "/"

/-- Whether the last name is one of those that every folder has. -/
def endsInDots (path : Path) : Bool :=
  path.bareNames.getLast? = some "." || path.bareNames.getLast? = some ".."

/-- The segments that count. -/
def segments (path : Path) : List String :=
  match path.names with
  | first :: rest =>
    (if first = "" then [] else [first]) ++ rest.filter fun segment => segment ≠ "" ∧ segment ≠ "."
  | [] => []

def isAbsolute (path : Path) : Bool := path.text.startsWith "/"

/-- Two paths are the same when they count the same segments from the same start. -/
def same (a b : Path) : Bool := a.isAbsolute == b.isAbsolute && a.segments == b.segments

def fileName? (path : Path) : Option String :=
  path.segments.getLast?.filter fun segment => segment ≠ "." ∧ segment ≠ ".."

/-- Splits a name at its last dot. -/
def splitName (name : String) : String × Option String :=
  match (cut '.' name.toList).reverse with
  | last :: before :: earlier =>
    let stem := ".".intercalate ((before :: earlier).reverse.map String.ofList)
    if stem = "" then (name, none) else (stem, some (String.ofList last))
  | _ => (name, none)

def stem? (path : Path) : Option String := path.fileName?.map fun name => (splitName name).1

def extension? (path : Path) : Option String := path.fileName?.bind fun name => (splitName name).2

/-- The raw segments in front of the file name and those behind it, of which none counts. -/
def around (path : Path) (name : String) : List String × List String :=
  let parts := path.names
  let behind := (parts.reverse.takeWhile fun part => part ≠ name).length
  (parts.take (parts.length - behind - 1), parts.drop (parts.length - behind))

/-- Replaces the extension, or adds one to a name that has none; the empty extension takes the dot
with it. A path without a file name stays as it is, and so does the name that turns into two dots
when its extension is taken away, since that is not a file name any more. -/
def withExtension (path : Path) (extension : String) : Path :=
  match path.fileName? with
  | none => path
  | some name =>
    let (front, behind) := path.around name
    let front := String.join (front.map (· ++ "/"))
    let (stem, previous) := splitName name
    if stem = "." ∧ previous.isSome ∧ behind = [] then ⟨front ++ ".."⟩
    else ⟨front ++ stem ++ (if extension = "" then "" else "." ++ extension)⟩

/-- The path in a folder. An absolute path does not depend on the folder. -/
def join (folder path : Path) : Path :=
  if path.isAbsolute then path
  else if folder.text = "" ∨ folder.text.endsWith "/" then ⟨folder.text ++ path.text⟩
  else ⟨folder.text ++ "/" ++ path.text⟩

/-- The folder of the file with the given name, without separators and dots at its end. -/
def folder (path : Path) (name : String) : Path :=
  let front := (path.around name).1
  match (front.reverse.dropWhile fun part => part = "" ∨ part = ".").reverse with
  | [] => if path.isAbsolute then ⟨"/"⟩ else ⟨front.headD ""⟩
  | parts => ⟨"/".intercalate parts⟩

/-- The path of another file in the same folder. -/
def withFileName (path : Path) (name : String) : Path :=
  match path.fileName? with
  | none => path.join ⟨name⟩
  | some old => (path.folder old).join ⟨name⟩

end Path
end HotPatch
