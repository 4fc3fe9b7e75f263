import Indentation.Check.Journal
import Indentation.Java.FrontEnd
import Indentation.Registry.Configuration
import Indentation.Settings

/-! The linter: it picks the front end for a file, parses the file and checks the tree. -/

namespace Indentation

structure Linter where
  registry : Registry FrontEnd
  options : Options

namespace Linter

def logger : Log.Logger := ⟨"indentlint.services.linter", [("rule", .str "indent")]⟩

private def entry (logger : Log.Logger) (level : Log.Level) (message : String)
    (extra : Fields) (raised : Option Log.Raised) : Log.Entry :=
  ⟨level, logger.name, message, logger.merged extra, raised⟩

/-- Without a configuration the settings decide. -/
def make (registry : Registry FrontEnd) (settings : Settings) (config : Value) : Linter where
  registry := registry
  options :=
    match config with
    | .null => settings.options
    | config => Options.ofConfig config

def parseWith (plugin : Plugin FrontEnd) (file : SourceFile) :
    List Log.Entry × Except Failure Tree :=
  let (log, outcome) := plugin.frontEnd.parse file
  match outcome with
  | .ok tree =>
    (log ++ [entry logger Log.Level.debug ("Successfully parsed " ++ file.path) [] none], .ok tree)
  | .error failure =>
    (log ++ [entry logger Log.Level.error ("Failed to parse " ++ file.path)
      [("file_path", .str file.path)] (some failure.raised)], .error failure)

variable (linter : Linter)

/-- The tree of a file in a language that some plugin handles. -/
def parseFile (file : SourceFile) : List Log.Entry × Except Failure Tree :=
  match linter.registry.pluginFor file.path with
  | some plugin => parseWith plugin file
  | none => ([Registry.unhandled file.path], .error (.noPlugin file.path))

/-- Checks a tree by the profile of a plugin, or by the usual one. -/
def checkTree (tree : Tree) (frontEnd : Option FrontEnd) :
    List Log.Entry × Except Failure (List Diagnostic) :=
  match (frontEnd.map (·.profile)).getD (.ok {}) with
  | .error report => ([], .error (.invalid report))
  | .ok profile =>
    match (Check.Checker.mk linter.options profile).check tree {} with
    | .ok _ s => (s.log linter.options, .ok (s.diagnostics linter.options))
    | .error fault s => (s.log linter.options, .error (.stopped fault))

private def summary (plugin : Plugin FrontEnd) (file : SourceFile) (count : Nat) : Log.Entry :=
  entry (logger.derive [("language", plugin.language)]) Log.Level.info
    (Log.summaryMessage (.str file.path) (.int count)) (Log.summaryContext (.str file.path) (.int count) none) none

/-- The diagnostics of a file; a file that no plugin handles has none. -/
def lint (file : SourceFile) : List Log.Entry × Except Failure (List Diagnostic) :=
  match linter.registry.pluginFor file.path with
  | none =>
    ([Registry.unhandled file.path,
      entry logger Log.Level.warning ("No plugin found for " ++ file.path ++ ", skipping") [] none], .ok [])
  | some plugin =>
    match parseWith plugin file with
    | (log, .error failure) => (log, .error failure)
    | (log, .ok tree) =>
      match linter.checkTree tree (some plugin.frontEnd) with
      | (more, .error failure) => (log ++ more, .error failure)
      | (more, .ok diagnostics) =>
        (log ++ more ++ [summary plugin file diagnostics.length], .ok diagnostics)

/-- Why a linter cannot be set up. -/
inductive SetupFault where
  | level (fault : Log.Level.Unusable)
  | registry (fault : Registry.Fault)
  | java (fault : Java.Config.Fault)

/-- The plugin of the Java front end with a configuration. -/
def javaPlugin (config : Value) : Except Java.Config.Fault (Plugin FrontEnd) := do
  let config ← Java.Config.ofValue config
  return ⟨.str "java", config.extensions, Java.frontEnd config⟩

private def withEntry (registry : Registry FrontEnd) (entry : Log.Entry) : Registry FrontEnd :=
  { registry with log := registry.log ++ [entry] }

private def registerFound (files : Files) (registry : Registry FrontEnd) (name : Value) (path : Path) :
    Except SetupFault (Registry FrontEnd) :=
  match name with
  | .str "java" =>
    match files.get? path with
    | .error _ => .error (.registry .tooLong)
    | .ok none => .error (.registry (.notFound path))
    | .ok (some .directory) => .error (.registry .isDirectory)
    | .ok (some (.file (.malformed complaint))) => .error (.registry (.malformed path (complaint path.text)))
    | .ok (some (.file (.value config))) => do
      let plugin ← (javaPlugin config).mapError .java
      match Registry.register plugin (withEntry registry Java.ready) with
      | .ok _ registry => return registry
      | .error fault _ => throw (.registry fault)
  | name =>
    .ok (withEntry registry (entry logger Log.Level.warning
      ("No front end available for plugin '" ++ name.display ++ "'") [] none))

/-- A linter with every discovered plugin that has a front end. -/
def create (settings : Settings) (config : Value) (files : Files) (directory : Path) :
    Except SetupFault Linter := do
  match Log.Level.ofValue (.str settings.logLevel) with
  | .error fault => throw (.level fault)
  | .ok _ =>
    match Registry.discover files directory ({} : Registry FrontEnd) with
    | .error fault _ => throw (.registry fault)
    | .ok found registry =>
      let registry ← (Keyed.entries found).foldlM
        (fun registry (name, path) => registerFound files registry name path) registry
      let ready := entry logger Log.Level.info
        ("Indent linter ready for " ++ (Value.list registry.languages).literal) [] none
      return make (withEntry registry ready) settings config

end Linter
end Indentation
