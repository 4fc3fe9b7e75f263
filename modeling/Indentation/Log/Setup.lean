import Indentation.Log.Logger

/-! The logging set-up of a process: the level of the root, whether records are written at
all, and the level of the parser library, which is kept quiet once logging is set up. -/

namespace Indentation.Log

structure Setup where
  rootLevel : Level := Level.warning
  /-- The root's level in the words in which it was set. -/
  given : Value := .int Level.warning
  writing : Bool := false
  parserLevel : Level := Level.notset
  deriving Repr

namespace Setup

/-- Starts writing from a level on; what was set up before stays if the level is unusable. -/
def start (_ : Setup) (level : Value) : Except Level.Unusable Setup := do
  let rootLevel ← Level.ofValue level
  let given := match level with
    | .bool b => .bool b
    | _ => .int rootLevel
  return { rootLevel, given, writing := true, parserLevel := Level.warning }

def parserLogger : List Char := "tree_sitter".toList

/-- A logger without a level of its own has the one of the logger above it. -/
def threshold (setup : Setup) (logger : String) : Level :=
  let belongs := parserLogger.isPrefixOf logger.toList
    && ((logger.toList.drop parserLogger.length).headD '.') = '.'
  if belongs && setup.parserLevel ≠ Level.notset then setup.parserLevel else setup.rootLevel

/-- A place as the name of a field. -/
private def placeName : Value → Option (Int × String)
  | .int n => some (n, toString n)
  | .bool b => some (if b then (1, "true") else (0, "false"))
  | _ => none

/-- The field that an item of a row names by its place, unless the item was met before. -/
private def fieldAt (row : List Value) (met : List Key) (item : Value) : Except Refused (Key × String × Value) :=
  match item.key? with
  | none => .error .notTable
  | some key =>
    if met.contains key || reserved.any (fun name => key = .text name) then .error (.clash item)
    else
      match placeName item with
      | none => .error .notTable
      | some (place, name) =>
        match Row.item? row place with
        | some v => .ok (key, name, v)
        | none => .error .outside

private def rowFields (row : List Value) : List Key → List Value → Except Refused Fields
  | _, [] => .ok []
  | met, item :: rest => do
    let (key, name, v) ← fieldAt row met item
    return (name, v) :: (← rowFields row (key :: met) rest)

/-- What a call adds may be left out or empty. In a row each item is the place of another, and
the places are the names of the fields. -/
def added : Value → Except Refused Fields
  | .null => .ok []
  | .obj fields => .ok fields
  | .str "" => .ok []
  | .list row => rowFields row [] row
  | _ => .error .notTable

/-- The entries that a call writes. -/
def emit (setup : Setup) (logger : String) (level : Level) (message : String)
    (extra : Value) : Except Refused (List Entry) := do
  if Level.passes (setup.threshold logger) level then
    let made ← Log.entry level (displayName logger) message (← added extra) none
    return if setup.writing then [made] else []
  else return []

end Setup
end Indentation.Log
