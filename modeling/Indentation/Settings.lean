import Indentation.Options

/-! Application settings. Each may come from an environment variable, or from a line of a
settings file where the environment is silent; names are matched without regard to case. -/

namespace Indentation

structure Settings where
  logLevel : String
  indentSize : Int
  indentUnit : String
  deriving DecidableEq, Repr

namespace Settings

open Schema in
def read (form : Form) : Verdict Settings :=
  Settings.mk <$> form.optional "log_level" "INFO" Read.text
    <*> form.optional "indent_size" 4 Read.integer
    <*> form.optional "indent_unit" "spaces" Read.text

def names : List String := ["log_level", "indent_size", "indent_unit"]

/-- The settings given under names that begin with a stem. Case does not count, and of several
spellings the first does. -/
def given (stem : String) (entries : Fields) : Fields :=
  names.filterMap fun name =>
    (List.find? (fun (key, _) => key.toLower = stem ++ name) entries).map fun (_, v) => (name, v)

/-- Settings given by their own names. -/
def ofFields (fields : Fields) : Except Schema.Invalid Settings :=
  (read { fields := given "" fields }).toExcept "Settings"

/-- Of variables that differ in case only the last counts. -/
private def setBy (table : Table String String) : Fields :=
  given "indentlint_" (table.reverse.map fun (name, text) => (name, .str text))

/-- A comment begins with white space and a number sign. -/
def withoutComment : List Char → List Char
  | [] => []
  | c :: rest =>
    if Text.isGap c && (rest.dropWhile Text.isGap).head? = some '#' then [] else c :: withoutComment rest

/-- What a line of the settings file says after its equals sign. -/
def lineText (written : String) : String :=
  String.ofList (Text.trimmedOf Text.isGap (withoutComment (written.toList.dropWhile Text.isGap)))

private def trimmedName (name : String) : String := String.ofList (Text.trimmedOf Text.isGap name.toList)

/-- The lines of the settings file. A name that comes again keeps its place and takes the later
text. -/
def ofLines (lines : List (String × String)) : Table String String :=
  lines.foldl (fun table (name, written) => Table.put table (trimmedName name) (lineText written)) []

/-- Why an environment variable cannot be set. -/
inductive Unsettable where
  | nul
  /-- Its name holds an equals sign. -/
  | misnamed
  | nameless
  deriving DecidableEq, Repr

def Unsettable.message : Unsettable → String
  | .nul => "embedded null byte"
  | .misnamed => "illegal environment variable name"
  | .nameless => "no name"

def unsettable? (name text : String) : Option Unsettable :=
  if name.contains '\x00' || text.contains '\x00' then some .nul
  else if name.contains '=' then some .misnamed
  else if name.isEmpty then some .nameless
  else none

/-- The environment overrides the lines of the settings file. -/
def ofEnvironment (environment : Table String String) (lines : List (String × String)) :
    Except Schema.Invalid Settings :=
  (read { fields := Table.merge (setBy (ofLines lines)) (setBy environment) }).toExcept "Settings"

def options (settings : Settings) : Options :=
  Options.ofSettings
    (.obj [("indentSize", .int settings.indentSize), ("indentUnit", .str settings.indentUnit)])

end Settings
end Indentation
