import Indentation.Outline.Basic
import Indentation.Value.Basic

/-! A placed node as reports show it. -/

namespace Indentation

def Kind.literal (kind : Kind) : String :=
  "<NodeKind." ++ kind.name.toUpper ++ ": " ++ Text.quoted kind.name ++ ">"

namespace Outline

private def optionLiteral (text : Option String) : String :=
  (text.map Text.quoted).getD "None"

mutual

def literal : Outline → String
  | node label children =>
    "ParseNode(kind=" ++ label.kind.literal ++ ", text=" ++ optionLiteral label.text
      ++ ", line=" ++ toString label.line ++ ", column=" ++ toString label.column
      ++ ", stop_line=" ++ toString label.stopLine
      ++ ", children=[" ++ ", ".intercalate (literals children) ++ "]"
      ++ ", channel=" ++ toString label.channel ++ ", token_type=" ++ toString label.type ++ ")"

def literals : List Outline → List String
  | [] => []
  | o :: rest => literal o :: literals rest

end

end Outline
end Indentation
