import Indentation.Log.Level
import Indentation.Log.Timestamp
import Indentation.Value.Json

/-! Log records and the objects they are written as. The file, the language and the rule
of a record's context stand at the top of the object; the rest of the context stands
together in a field of its own. -/

namespace Indentation.Log

/-- An error that a record reports. -/
inductive Raised where
  | nothing
  | error (type : String) (argument : Option Value)

namespace Raised

def type : Raised → Value
  | .nothing => .null
  | .error type _ => .str type

/-- An unknown key is reported as a literal, anything else as it is. -/
def text (type : String) (argument : Option Value) : String :=
  match argument with
  | none => ""
  | some argument => if type = "KeyError" then argument.literal else argument.display

def message : Raised → Value
  | .nothing => .null
  | .error type argument => .str (text type argument)

def trace : Raised → String
  | .nothing => "NoneType: None"
  | .error type argument =>
    let message := text type argument
    if message.isEmpty then type else type ++ ": " ++ message

end Raised

/-- Context fields that stand at the top, in this order. -/
def promoted : List String := ["file_path", "language", "rule"]

def promotedFields (context : Fields) : Fields :=
  promoted.filterMap fun key => (Table.find? context key).map (key, ·)

def otherContext (context : Fields) : Fields :=
  context.filter fun (key, _) => !promoted.contains key

def contextField (context : Fields) : Fields :=
  if (otherContext context).isEmpty then [] else [("context", .obj (otherContext context))]

/-- Where a trace is asked for, it comes last. -/
def errorField (raised : Option Raised) (traced : Bool) : Fields :=
  match raised with
  | none => []
  | some raised =>
    let trace := if traced then [("stack_trace", .str raised.trace)] else []
    [("error", .obj ([("type", raised.type), ("message", raised.message)] ++ trace))]

/-- What every object holds, under the words for its level and its logger. -/
def fieldsUnder (level logger : Value) (message : String) (context : Fields) (raised : Option Raised)
    (traced : Bool) : Fields :=
  [("level", level), ("logger", logger), ("message", .str message)]
    ++ promotedFields context ++ contextField context ++ errorField raised traced

/-- What a record says, apart from when and where it was made. -/
structure Entry where
  level : Level
  logger : String
  message : String
  context : Fields := []
  raised : Option Raised := none

def Entry.fields (entry : Entry) : Fields :=
  fieldsUnder (.str entry.level.name) (.str entry.logger) entry.message entry.context entry.raised false

/-- A record with the moment and the place of its making. What names its level, its logger and
its place may be any value, and the moment any number. -/
structure Record where
  level : Value
  logger : Value
  message : Value
  context : Fields := []
  raised : Option Raised := none
  /-- In microseconds. -/
  created : Value
  path : Value
  function : Value
  line : Value

/-- A file's name without the last extension; dots at its front begin none. -/
def stemOf (path : String) : String :=
  let name := (path.toList.reverse.takeWhile (· ≠ '/')).reverse
  let stem := (name.reverse.dropWhile (· ≠ '.')).drop 1
  String.ofList (if stem.all (· = '.') then name else stem.reverse)

def moduleOf : Value → String
  | .str path => stemOf path
  | _ => "Unknown module"

namespace Record

/-- Why a record cannot be written. -/
inductive Fault where
  /-- Its level is no scalar. -/
  | level
  /-- The moment of its making is no number. -/
  | moment
  | created (fault : Timestamp.OutOfRange)
  deriving DecidableEq, Repr

/-- The moment in seconds. -/
def seconds (record : Record) : Except Fault Double :=
  let inSeconds (n : Int) : Except Fault Double :=
    match Double.ofInt? n with
    | some d => .ok (d.divNat 1000000)
    | none => .error (.created .clock)
  match record.created with
  | .int n => inSeconds n
  | .bool b => inSeconds (if b then 1 else 0)
  | .float d => .ok (d.divNat 1000000)
  | _ => .error .moment

def source (record : Record) : String :=
  moduleOf record.path ++ ":" ++ record.function.display ++ ":" ++ record.line.display

def payload (record : Record) : Except Fault Value := do
  let level ← (Level.label? record.level).elim (throw .level) pure
  let timestamp ← (Timestamp.text (← record.seconds)).mapError .created
  return .obj ([("timestamp", .str timestamp)]
    ++ fieldsUnder level record.logger record.message.display record.context record.raised true
    ++ [("source", .str record.source)])

def text (record : Record) : Except Fault String := Value.json <$> record.payload

end Record
end Indentation.Log
