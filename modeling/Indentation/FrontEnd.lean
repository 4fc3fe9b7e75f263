import Indentation.Check.Run
import Indentation.Java.Cst
import Indentation.Log.Logger
import Indentation.Tree.Entry

/-! Language front ends: what turns a source file into a tree, and how trees of the
language are laid out. -/

namespace Indentation

/-- A file to be checked, with the concrete tree that the parser made of it, if any. -/
structure SourceFile where
  path : String
  /-- Nothing where it is no text. -/
  content : Option String
  concrete : Option Java.Cst

/-- Why a file is not checked. -/
inductive Failure where
  | unparsed (message : String)
  | noPlugin (path : String)
  | flawed (flaw : Tree.Flaw)
  | invalid (report : Schema.Invalid)
  | stopped (fault : Check.Fault)

namespace Failure

def message : Failure → String
  | .unparsed message => message
  | .noPlugin path => "No plugin found for file: " ++ path
  | .flawed flaw => flaw.message
  | .invalid report => report.message
  | .stopped (.lost (.unlisted number)) => toString number ++ " is not in list"
  | .stopped _ => ""

def type : Failure → String
  | .invalid _ => "ValidationError"
  | _ => "ValueError"

def raised (failure : Failure) : Log.Raised := .error failure.type (some (.str failure.message))

end Failure

structure FrontEnd where
  profile : Except Schema.Invalid Profile
  /-- The log of the parse and its outcome. -/
  parse : SourceFile → List Log.Entry × Except Failure Tree

end Indentation
