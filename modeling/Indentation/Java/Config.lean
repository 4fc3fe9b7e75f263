import Indentation.Kind
import Indentation.Options

/-! The configuration of the Java front end: which node types become which kinds, which
children are statements, and which are lifted into their parent. -/

namespace Indentation.Java

structure Config where
  profile : Profile
  kinds : Table String Kind
  statementParents : List String
  statementTypes : List String
  spliced : Table String (List String)
  /-- Whatever the configuration names; it is not looked at here. -/
  extensions : Value

namespace Config

/-- Why a configuration is unusable. -/
inductive Fault where
  /-- Fields are asked of something that has none. -/
  | noFields
  /-- Something is not a row of names. -/
  | noRow
  | unknownKind (found : Value)
  | invalid (report : Schema.Invalid)

def Fault.message : Fault → String
  | .noFields => "no fields"
  | .noRow => "no row of names"
  | .unknownKind found => found.literal ++ " is not a valid NodeKind"
  | .invalid report => report.message

private def kindOf (v : Value) : Except Fault Kind :=
  match v with
  | .str s =>
    match Kind.ofName? s with
    | some kind => .ok kind
    | none => .error (.unknownKind v)
  | _ => .error (.unknownKind v)

private def rowOf (v : Value) : Except Fault (List String) :=
  match v.row? with
  | some names => .ok names
  | none => .error .noRow

private def section? (fields : Fields) (name : String) (otherwise : Value) : Value :=
  (Table.find? fields name).getD otherwise

private def entriesOf : Value → Except Fault (Fields)
  | .obj fields => .ok fields
  | _ => .error .noFields

private def profileOf : Value → Except Fault Profile
  | .obj fields => ((Profile.read { fields }).toExcept "GrammarProfile").mapError .invalid
  | _ => .error .noRow

/-- Reads the sections in order; the first that is unusable decides. -/
def ofValue (v : Value) : Except Fault Config := do
  let fields ← entriesOf v
  let profile ← profileOf (section? fields "grammar" (.obj []))
  let kinds ← (← entriesOf (section? fields "node_kinds" (.obj []))).mapM fun (type, kind) =>
    return (type, ← kindOf kind)
  let statementParents ← rowOf (section? fields "statement_parents" (.list []))
  let statementTypes ← rowOf (section? fields "statement_types" (.list []))
  let spliced ← (← entriesOf (section? fields "spliced_children" (.obj []))).mapM fun (type, row) =>
    return (type, ← rowOf row)
  let extensions := section? fields "file_extensions" (.list [.str ".java"])
  return { profile, kinds, statementParents, statementTypes, spliced, extensions }

def kind (config : Config) (type : String) : Kind :=
  (Table.find? config.kinds type).getD .other

/-- Whether children of one type are lifted into parents of another. -/
def splices (config : Config) (parent child : String) : Bool :=
  ((Table.find? config.spliced parent).getD []).contains child

def isStatement (config : Config) (parent child : String) : Bool :=
  config.statementParents.contains parent && config.statementTypes.contains child

end Config
end Indentation.Java
