import Indentation.Log.Logger
import Indentation.Registry.Files
import Indentation.Value.Key

/-! A registry of plugins. A plugin is found by the extension of a file: the extension
leads to the language that claimed it last, and the language to the plugin registered for
it last. -/

namespace Indentation

structure Plugin (α : Type) where
  /-- A text as a rule; any scalar will do. -/
  language : Value
  extensions : Value
  frontEnd : α

structure Registry (α : Type) where
  /-- By language, in the order in which languages were first registered. -/
  plugins : Keyed (Plugin α) := []
  /-- Languages by extension. -/
  claims : Table String Key := []
  /-- Configurations by the text of their path. -/
  cache : Fields := []
  log : List Log.Entry := []

namespace Registry

inductive Fault where
  | notFound (path : Path)
  | isDirectory
  | tooLong
  | malformed (path : Path) (complaint : String)
  | missing (fields : List String) (path : Path)
  /-- A value of the wrong sort: nothing can be asked of it, or it cannot be a key. -/
  | wrongSort
  deriving DecidableEq, Repr

def Fault.message : Fault → String
  | .notFound path => "Plugin configuration not found: " ++ path.text
  | .isDirectory => ""
  | .tooLong => ""
  | .malformed _ complaint => complaint
  | .missing fields path =>
    "Missing required field(s) " ++ (Value.list (fields.map .str)).literal ++ " in " ++ path.text
  | .wrongSort => ""

/-- What was noted and stored before a fault stays. -/
abbrev Action (α : Type) := EStateM Fault (Registry α)

variable {α : Type}

def logger : String := "plugins.manager"

def note (registry : Registry α) (level : Log.Level) (message : String) : Registry α :=
  { registry with log := registry.log ++ [⟨level, logger, message, [], none⟩] }

def install (registry : Registry α) (language : Key) (plugin : Plugin α) : Registry α :=
  { registry with plugins := Keyed.put registry.plugins language plugin.language plugin }

def claim (registry : Registry α) (language : Key) (extensions : List String) : Registry α :=
  { registry with
    claims := extensions.foldl (fun claims extension => Table.put claims extension language) registry.claims }

/-- A later registration replaces an earlier one of the same language or extension. -/
def register (plugin : Plugin α) : Action α Unit := do
  match plugin.language.key? with
  | none => throw .wrongSort
  | some language =>
    if Table.has (← get).plugins language then
      modify (·.note Log.Level.warning ("Replacing plugin for language '" ++ plugin.language.display ++ "'"))
    modify (·.install language plugin)
    match plugin.extensions.row? with
    | none => throw .wrongSort
    | some extensions =>
      modify (·.claim language extensions)
      modify (·.note Log.Level.info
        ("Registered '" ++ plugin.language.display ++ "' plugin for " ++ plugin.extensions.display))

/-- The plugin for a file. A claim by no language counts for nothing. -/
def pluginFor (registry : Registry α) (path : String) : Option (Plugin α) := do
  let language ← Table.find? registry.claims (Path.parse path).suffix
  guard (language ≠ .null)
  return (← Table.find? registry.plugins language).2

def unhandled (path : String) : Log.Entry :=
  ⟨Log.Level.debug, logger, "No plugin handles " ++ path, [], none⟩

/-- Looks up a plugin and notes when there is none. -/
def find (path : String) : Action α (Option (Plugin α)) := do
  match (← get).pluginFor path with
  | some plugin => return some plugin
  | none =>
    modify fun registry => { registry with log := registry.log ++ [unhandled path] }
    return none

/-- In the spelling in which each was first registered. -/
def languages (registry : Registry α) : List Value := (Keyed.entries registry.plugins).map (·.1)

end Registry
end Indentation
