import Indentation.Java.Bundled
import Indentation.Registry.Path

/-! The files that plugin configurations are read from. A store holds files and directories
by their place below the root; relative paths start at the working directory. -/

namespace Indentation

inductive Files.Content where
  | value (value : Value)
  /-- Text that is no configuration at all, with what the parser says of it when it is opened
  under a name. -/
  | malformed (complaint : String → String)

inductive Files.Item where
  | file (content : Files.Content)
  | directory

structure Files where
  items : List (List String × Files.Item)

namespace Files

def workingDirectory : List String := ["work"]

/-- Where the plugins that come with the linter are kept. -/
def bundledDirectory : Path := ⟨"/", ["bundled"]⟩

def initial : Files where
  items :=
    [(workingDirectory, .directory), (["bundled"], .directory), (["bundled", "java"], .directory),
      (["bundled", "java", "config.yaml"], .file (.value Java.Bundled.config))]

def find? (files : Files) (place : List String) : Option Item :=
  if place = [] then some .directory else (files.items.find? (·.1 = place)).map (·.2)

def isDirectory (files : Files) (place : List String) : Bool :=
  match files.find? place with
  | some .directory => true
  | _ => false

def start (path : Path) : List String := if path.root = "" then workingDirectory else []

/-- Why nothing can be done with a path. -/
inductive Trouble where
  /-- Nothing is there. -/
  | missing
  /-- It leads through a file. -/
  | notDirectory
  | isDirectory
  /-- A file stands where a directory is to be made. -/
  | taken
  | tooLong
  /-- It holds the character that ends texts for the file system. -/
  | nul
  deriving DecidableEq, Repr

def longestName : Nat := 255

def longestPath : Nat := 4095

/-- What is wrong with a path before anything is looked up. -/
def writtenWrong? (path : Path) : Option Trouble :=
  if path.text.contains '\x00' then some .nul
  else if longestPath < path.text.utf8ByteSize then some .tooLong
  else none

/-- One step of a path from a directory. -/
def stepInto (files : Files) (place : List String) (part : String) : Except Trouble (List String) :=
  if !files.isDirectory place then .error .notDirectory
  else if part = ".." then .ok place.dropLast
  else if longestName < part.utf8ByteSize then .error .tooLong
  else if (files.find? (place ++ [part])).isSome then .ok (place ++ [part])
  else .error .missing

/-- Follows a path through directories that exist. -/
def locate (files : Files) (path : Path) : Except Trouble (List String) :=
  match writtenWrong? path with
  | some trouble => .error trouble
  | none => path.parts.foldlM (stepInto files) (start path)

/-- What is at a path. Only a path that is too long is more than missing. -/
def get? (files : Files) (path : Path) : Except Trouble (Option Item) :=
  match files.locate path with
  | .ok place => .ok (files.find? place)
  | .error .tooLong => .error .tooLong
  | .error _ => .ok none

def put (files : Files) (place : List String) (item : Item) : Files where
  items := files.items.filter (·.1 ≠ place) ++ [(place, item)]

/-- A change of the files. What was made before trouble came stays. -/
abbrev Change := EStateM Trouble Files

/-- Makes the directories along a path that are not there yet, those it leaves again included. -/
private def makeAlong : List String → List String → Change (List String)
  | place, [] => return place
  | place, part :: rest => do
    match (← get).stepInto place part with
    | .error .missing =>
      modify (·.put (place ++ [part]) .directory)
      makeAlong (place ++ [part]) rest
    | .error trouble => throw trouble
    | .ok next =>
      if (← get).isDirectory next then makeAlong next rest
      else throw (if rest = [] then .taken else .notDirectory)

/-- Makes a directory and those above it. -/
def makeDirectory (path : Path) : Change Unit := do
  match writtenWrong? path with
  | some trouble => throw trouble
  | none => discard (makeAlong (start path) path.parts)

/-- Writes a file in a directory that is made where need be. -/
def write (path : Path) (content : Content) : Change Unit := do
  makeDirectory path.parent
  match (← get).locate path with
  | .ok place =>
    if (← get).isDirectory place then throw .isDirectory
    modify (·.put place (.file content))
  | .error .missing =>
    match (← get).locate path.parent with
    | .ok above => modify (·.put (above ++ [path.name]) (.file content))
    | .error trouble => throw trouble
  | .error trouble => throw trouble

/-- Removes a file, or a directory with everything in it. -/
def remove (path : Path) : Change Unit := do
  match (← get).locate path with
  | .ok place => modify fun files => { items := files.items.filter fun (other, _) => !place.isPrefixOf other }
  | .error trouble => throw trouble

/-- The names in a directory, in order. -/
def names (files : Files) (place : List String) : List String :=
  (files.items.filterMap fun (other, _) =>
    if other ≠ [] ∧ other.dropLast = place then other.getLast? else none).mergeSort fun a b => !(b < a)

/-- The configurations one level below a directory, in the order of their directories. -/
def configurations (files : Files) (path : Path) : List Path :=
  match files.locate path with
  | .error _ => []
  | .ok place =>
    ((files.names place).filter fun name =>
      files.isDirectory (place ++ [name]) && (files.find? (place ++ [name, "config.yaml"])).isSome).map
      fun name => path.join [name, "config.yaml"]

end Files
end Indentation
