import Indentation.Schema.Reader

/-! Diagnostics, and a collector that keeps them in the order of their reports. -/

namespace Indentation

inductive Severity where
  | info
  | warning
  | error
  deriving DecidableEq, Repr

def Severity.name : Severity → String
  | .info => "info"
  | .warning => "warning"
  | .error => "error"

def Severity.choices : List (String × Severity) :=
  [("info", .info), ("warning", .warning), ("error", .error)]

structure Diagnostic where
  line : Int
  column : Int
  category : String
  message : String
  severity : Severity := .error
  deriving DecidableEq, Repr

namespace Diagnostic

open Schema in
def read (form : Form) : Verdict Diagnostic :=
  Diagnostic.mk <$> form.required "line" Read.integer
    <*> form.required "column" Read.integer
    <*> form.required "category" Read.text
    <*> form.required "message" Read.text
    <*> form.optional "severity" .error (Read.choice Severity.choices)

/-- The lines that have diagnostics, each once, in the order of their first one. -/
def lines (diagnostics : List Diagnostic) : List Int :=
  (diagnostics.map (·.line)).eraseDups

end Diagnostic

/-- The severity is looked at only when something is reported. -/
structure Collector where
  severity : Value := .str "error"
  diagnostics : List Diagnostic := []

/-- Adds a diagnostic, unless one of its fields is refused. -/
def Collector.report (collector : Collector) (line column category message : Value) :
    Except Schema.Invalid Collector := do
  let diagnostic ← (Diagnostic.read
    { fields := [("line", line), ("column", column), ("category", category), ("message", message),
        ("severity", collector.severity)] }).toExcept "Diagnostic"
  return { collector with diagnostics := collector.diagnostics ++ [diagnostic] }

end Indentation
