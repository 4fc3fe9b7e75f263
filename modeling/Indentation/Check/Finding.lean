import Indentation.Diagnostic
import Indentation.Options

/-! What a check finds: something that stands in another column than the one it belongs
in, or a line that starts between two steps of indentation. -/

namespace Indentation

inductive Finding.Cause where
  | misplaced (required : Int)
  /-- The column was asked for in words that are no plain number. -/
  | unlike (required : String)
  | uneven
  deriving DecidableEq, Repr

structure Finding where
  line : Int
  column : Int
  cause : Finding.Cause
  deriving DecidableEq, Repr

namespace Finding

def message (unit : IndentUnit) (finding : Finding) : String :=
  match finding.cause with
  | .misplaced required => expected (toString required)
  | .unlike required => expected required
  | .uneven => "Indentation is incorrect"
where
  expected (required : String) : String :=
    "Expected indentation of " ++ required ++ " " ++ unit.name ++ " but found " ++ toString finding.column

def diagnostic (unit : IndentUnit) (finding : Finding) : Diagnostic :=
  ⟨finding.line, finding.column, "indent", finding.message unit, .error⟩

end Finding
end Indentation
