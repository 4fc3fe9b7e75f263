import Indentation.Value.Key

/-! Levels of log records. Six of them have names; a level is set by name, in capitals, or
by number. -/

namespace Indentation.Log

abbrev Level := Int

namespace Level

def notset : Level := 0
def debug : Level := 10
def info : Level := 20
def warning : Level := 30
def error : Level := 40
def critical : Level := 50

def names : List (String × Level) :=
  [("NOTSET", notset), ("DEBUG", debug), ("INFO", info), ("WARNING", warning), ("ERROR", error),
    ("CRITICAL", critical)]

def name? (level : Level) : Option String := (names.find? (·.2 = level)).map (·.1)

def name (level : Level) : String := level.name?.getD ("Level " ++ toString level)

/-- Two levels have a second name. -/
def ofName? (s : String) : Option Level :=
  ((names ++ [("WARN", warning), ("FATAL", critical)]).find? (·.1 = s)).map (·.2)

/-- Records without a level are never made, and others from the threshold on. -/
def passes (threshold level : Level) : Bool := notset < level && threshold ≤ level

/-- How a record calls a level that may be given by any scalar: a number by its name and a name
by its number, where there is one. -/
def label? (v : Value) : Option Value :=
  v.key?.map fun key =>
    let known : Option Value :=
      match key with
      | .number n 1 => (name? n).map .str
      | .text s => (ofName? s).map .int
      | _ => none
    known.getD (.str ("Level " ++ v.display))

/-- A call names its level. -/
def named? : Value → Option Level
  | .str s => ofName? s
  | _ => none

/-- Why a value sets no level. -/
inductive Unusable where
  | unknown (name : String)
  | notLevel
  deriving DecidableEq, Repr

def Unusable.message : Unusable → String
  | .unknown name => "Unknown level: " ++ Text.quoted name
  | .notLevel => "Level not an integer or a valid string"

def ofValue : Value → Except Unusable Level
  | .int n => .ok n
  | .bool b => .ok (if b then 1 else 0)
  | .str s =>
    match ofName? s with
    | some level => .ok level
    | none => .error (.unknown s)
  | _ => .error .notLevel

end Level
end Indentation.Log
