import Indentation.FrontEnd
import Indentation.Java.Convert

/-! The Java front end. A file fails to parse when the parser gave no tree, or one whose
root does not belong in a tree; syntax errors elsewhere only cause a warning. -/

namespace Indentation.Java

def logger : String := "plugins.java.plugin"

def ready : Log.Entry := ⟨Log.Level.info, logger, "Java plugin initialized successfully", [], none⟩

private def unparsed (cause : String) : String := "Failed to parse Java file: " ++ cause

/-- The tree of a text, or why there is none. -/
def treeOf (config : Config) (path content : String) (concrete : Option Cst) : Except String Tree :=
  match concrete with
  | none => .error (unparsed path)
  | some concrete =>
    match convert config (Text.Utf8.encode content.toList) concrete with
    | (_, none) => .error (unparsed path)
    | (hidden, some outline) => (outline.toTree hidden).mapError Tree.Flaw.message

private def syntaxWarning (path : String) : Option Cst → List Log.Entry
  | some concrete =>
    if concrete.label.hasError then
      [⟨Log.Level.warning, logger, "Syntax errors in " ++ path ++ ", checking the recoverable parts", [], none⟩]
    else []
  | none => []

private def parsed (path : String) : Except String Tree → List Log.Entry × Except Failure Tree
  | .ok tree => ([⟨Log.Level.debug, logger, "Successfully parsed Java file: " ++ path, [], none⟩], .ok tree)
  | .error cause =>
    ([⟨Log.Level.error, logger, "Error parsing Java file " ++ path ++ ": " ++ cause, [], none⟩],
      .error (.unparsed (unparsed cause)))

def parse (config : Config) (file : SourceFile) : List Log.Entry × Except Failure Tree :=
  match file.content with
  | none => parsed file.path (.error "encoding without a string argument")
  | some content =>
    let (log, outcome) := parsed file.path (treeOf config file.path content file.concrete)
    (syntaxWarning file.path file.concrete ++ log, outcome)

def frontEnd (config : Config) : FrontEnd where
  profile := .ok config.profile
  parse := parse config

end Indentation.Java
