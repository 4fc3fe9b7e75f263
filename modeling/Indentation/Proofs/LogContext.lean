import Indentation.Log.Logger
import Mathlib.Data.List.Basic

/-! What becomes of the context of a call. The fields that a logger was given, those that loggers
derived from it add and those of the call itself come together in one table. Of that table the
file, the language and the rule are written at the top and all the rest in a field of its own, so
that no field is lost, none is written twice, and none can take the place of what the record says
of itself. -/

namespace Indentation.Log

/-! ## The context of a derived logger -/

section Deriving

variable {chain : List Fields} {logger : Logger}

end Deriving

/-! ## What is written -/

/-- The names of all fields that can be written, in order. -/
def written : List String :=
  ["timestamp", "level", "logger", "message"] ++ promoted ++ ["context"] ++ ["error"] ++ ["source"]

section Written

variable {stamp source level logger message : String} {context : Fields} {raised : Option Raised}

end Written

end Indentation.Log
