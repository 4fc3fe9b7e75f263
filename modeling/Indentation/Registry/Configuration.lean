import Indentation.Registry.Basic

/-! Loading plugin configurations and discovering them in a directory. A configuration
that was loaded once is kept, whatever becomes of its file. -/

namespace Indentation.Registry

variable {α : Type}

def requiredFields : List String := ["name", "version", "file_extensions"]

private def occursIn (part : List Char) : List Char → Bool
  | [] => part.isEmpty
  | c :: rest => part.isPrefixOf (c :: rest) || occursIn part rest

/-- Whether a name occurs in a value: among the keys of an object, the items of a list or
within a text. Of other values it cannot be asked. -/
def holds (v : Value) (name : String) : Option Bool :=
  match v with
  | .obj fields => some (fields.any (·.1 = name))
  | .list items => some (items.any fun item => match item with | .str s => s = name | _ => false)
  | .str s => some (occursIn name.toList s.toList)
  | _ => none

private theorem occursIn_iff {part text : List Char} : occursIn part text = true ↔ part <:+: text := by
  induction text with
  | nil => rw [occursIn, List.isEmpty_iff, List.infix_nil]
  | cons c rest ih => rw [occursIn, Bool.or_eq_true, List.isPrefixOf_iff_prefix, ih, List.infix_cons_iff]

theorem holds_str_iff {s name : String} : holds (.str s) name = some true ↔ name.toList <:+: s.toList := by
  rw [holds, Option.some_inj, occursIn_iff]

/-- The required fields that a configuration lacks. -/
def lacking (v : Value) : Option (List String) :=
  requiredFields.filterM fun name => (holds v name).map not

/-- The configuration in a file's content; a value that is not filled in counts as an
empty one. -/
def configurationOf (path : Path) : Files.Content → Except Fault Value
  | .malformed complaint => .error (.malformed path (complaint path.text))
  | .value v =>
    let config := if v.isFilled then v else .obj []
    match lacking config with
    | none => .error .wrongSort
    | some [] => .ok config
    | some fields => .error (.missing fields path)

/-- What the files alone say of a path. -/
def readConfiguration (files : Files) (path : Path) : Except Fault Value :=
  match files.get? path with
  | .error _ => .error .tooLong
  | .ok none => .error (.notFound path)
  | .ok (some .directory) => .error .isDirectory
  | .ok (some (.file content)) => configurationOf path content

def noteMalformed (registry : Registry α) (fault : Fault) : Registry α :=
  match fault with
  | .malformed path _ =>
    registry.note Log.Level.error
      ("Malformed plugin configuration " ++ path.text ++ ": " ++ fault.message)
  | _ => registry

def load (files : Files) (path : Path) : Action α Value := do
  match Table.find? (← get).cache path.text with
  | some config => return config
  | none =>
    match readConfiguration files path with
    | .error fault =>
      modify (·.noteMalformed fault)
      throw fault
    | .ok config =>
      modify fun registry => { registry with cache := Table.put registry.cache path.text config }
      return config

/-- Faults that leave one plugin out and let discovery go on. -/
def isSkipped : Fault → Bool
  | .missing _ _ => true
  | .malformed _ _ => true
  | _ => false

/-- Adds a loaded configuration to those found. -/
def addFound (found : Keyed Path) (path : Path) (config : Value) : Action α (Keyed Path) := do
  match config.get? "name", config.get? "version" with
  | some name, some version =>
    modify (·.note Log.Level.info
      ("Found plugin configuration: " ++ name.display ++ " v" ++ version.display))
    match name.key? with
    | some key => return Keyed.put found key name path
    | none => throw .wrongSort
  | _, _ => throw .wrongSort

def discoverAll (files : Files) (found : Keyed Path) : List Path → Action α (Keyed Path)
  | [] => return found
  | path :: rest => fun registry =>
    match load files path registry with
    | .ok config registry =>
      (do discoverAll files (← addFound found path config) rest : Action α _) registry
    | .error fault registry =>
      if isSkipped fault then
        discoverAll files found rest (registry.note Log.Level.error
          ("Skipping plugin in " ++ path.parent.text ++ ": " ++ fault.message))
      else .error fault registry

/-- The configurations in the directories below a directory, by plugin name. -/
def discover (files : Files) (directory : Path) : Action α (Keyed Path) := do
  match files.get? directory with
  | .error _ => throw .tooLong
  | .ok none =>
    modify (·.note Log.Level.warning ("Plugins directory not found: " ++ directory.text))
    return []
  | .ok (some _) => discoverAll files [] (files.configurations directory)

end Indentation.Registry
