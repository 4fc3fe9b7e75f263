import Indentation.Check.State
import Indentation.Log.Logger

/-! The log of a check: when it begins, each finding, and what the check of line starts
covered. -/

namespace Indentation.Check

def Note.entry (options : Options) : Note → Log.Entry
  | .began nodes =>
    ⟨Log.Level.debug, "indentlint.analyzers.indent_checker",
      "Checking indentation of " ++ toString nodes ++ " node(s) with " ++ toString options.step ++ " "
        ++ options.unit.name, [], none⟩
  | .found finding =>
    let diagnostic := finding.diagnostic options.unit
    ⟨Log.Level.debug, "indentlint.services.reporter",
      Log.diagnosticMessage (.int diagnostic.line) (.int diagnostic.column) (.str diagnostic.message),
      Log.diagnosticContext (.int diagnostic.line) (.int diagnostic.column) (.str diagnostic.category), none⟩
  | .covered lines skipped =>
    ⟨Log.Level.debug, "indentlint.analyzers.validators",
      "Base indent check covered " ++ toString lines ++ " line(s), skipped " ++ toString skipped, [], none⟩

def State.diagnostics (s : State) (options : Options) : List Diagnostic :=
  s.findings.map (·.diagnostic options.unit)

def State.log (s : State) (options : Options) : List Log.Entry := s.notes.map (·.entry options)

end Indentation.Check
