import Indentation.Log.Record

/-! Loggers that carry context into every record they make. A logger's context wins over
what a call adds, and a derived logger's over that of the logger it comes from. -/

namespace Indentation.Log

/-- Names that a record uses for itself. -/
def reserved : List String :=
  ["message", "asctime", "name", "msg", "args", "levelname", "levelno", "pathname", "filename",
    "module", "exc_info", "exc_text", "stack_info", "lineno", "funcName", "created", "msecs",
    "relativeCreated", "thread", "threadName", "processName", "process"]

/-- Why a call makes no record. -/
inductive Refused where
  /-- The context uses a name of the record's own, or a key twice. -/
  | clash (key : Value)
  /-- What the call adds is no table. -/
  | notTable
  /-- What the call adds has no such place. -/
  | outside

def Refused.message : Refused → String
  | .clash key => "Attempt to overwrite " ++ key.literal ++ " in LogRecord"
  | .notTable => "not a table"
  | .outside => "no such place"

/-- The entry of a call with a context, refused at the first reserved name. -/
def entry (level : Level) (logger message : String) (context : Fields)
    (raised : Option Raised) : Except Refused Entry :=
  match List.find? (fun (key, _) => reserved.contains key) context with
  | some (key, _) => .error (.clash (.str key))
  | none => .ok ⟨level, logger, message, context, raised⟩

/-- The nameless logger is the root. -/
def displayName (logger : String) : String := if logger.isEmpty then "root" else logger

structure Logger where
  name : String
  context : Fields := []

namespace Logger

def derive (logger : Logger) (context : Fields) : Logger :=
  { logger with context := Table.merge logger.context context }

/-- A call's context under the logger's own. -/
def merged (logger : Logger) (extra : Fields) : Fields :=
  Table.merge extra logger.context

/-- Nothing is made of a call that does not pass the threshold. -/
def log (logger : Logger) (threshold level : Level) (message : String)
    (extra : Value) (raised : Option Raised) : Except Refused (Option Entry) :=
  if Level.passes threshold level then
    match extra with
    | .obj fields =>
      (Log.entry level (displayName logger.name) message (logger.merged fields) raised).map some
    | _ => .error .notTable
  else .ok none

end Logger

def diagnosticMessage (line column message : Value) : String :=
  "Diagnostic at " ++ line.display ++ ":" ++ column.display ++ ": " ++ message.display

def diagnosticContext (line column category : Value) : Fields :=
  [("line", line), ("column", column), ("category", category)]

def summaryMessage (path diagnostics : Value) : String :=
  "Checked " ++ path.display ++ ": " ++ diagnostics.display ++ " diagnostic(s)"

/-- A duration in hundredths; none where there is nothing to round. -/
def roundedDuration? : Value → Option Value
  | .int n => some (.int n)
  | .bool b => some (.int (if b then 1 else 0))
  | .float d => some (.float d.toHundredths)
  | _ => none

def summaryContext (path diagnostics : Value) (duration : Option Value) : Fields :=
  [("file_path", path), ("diagnostics", diagnostics)] ++ (duration.map ("duration_ms", ·)).toList

end Indentation.Log
