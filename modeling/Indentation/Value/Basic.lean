import Indentation.Double
import Indentation.Table
import Indentation.Text.Literal

/-! Dynamic values: what configuration files, settings and log contexts hold. An
object keeps the order of its fields. -/

namespace Indentation

inductive Value where
  | null
  | bool (value : Bool)
  | int (value : Int)
  | float (value : Double)
  | str (value : String)
  | list (items : List Value)
  | obj (fields : List (String × Value))
  deriving Repr, Inhabited

/-- Named values in order. -/
abbrev Fields := Table String Value

namespace Value

/-- An object's field; other values have none. -/
def get? (v : Value) (key : String) : Option Value :=
  match v with
  | .obj fields => Table.find? fields key
  | _ => none

/-- Whether a value counts as filled in: null, false, zero and what is empty do not. -/
def isFilled : Value → Bool
  | .null => false
  | .bool b => b
  | .int n => n ≠ 0
  | .float d => !d.isZero
  | .str s => !s.isEmpty
  | .list items => !items.isEmpty
  | .obj fields => !fields.isEmpty

/-- The name of a value's type in error texts. -/
def typeName : Value → String
  | .null => "NoneType"
  | .bool _ => "bool"
  | .int _ => "int"
  | .float _ => "float"
  | .str _ => "str"
  | .list _ => "list"
  | .obj _ => "dict"

mutual

/-- A value as a literal: texts in quotes, the constants capitalised. -/
def literal : Value → String
  | .null => "None"
  | .bool true => "True"
  | .bool false => "False"
  | .int n => toString n
  | .float d => d.text
  | .str s => Text.quoted s
  | .list items => "[" ++ ", ".intercalate (literals items) ++ "]"
  | .obj fields => "\x7b" ++ ", ".intercalate (fieldLiterals fields) ++ "\x7d"

def literals : List Value → List String
  | [] => []
  | v :: rest => literal v :: literals rest

def fieldLiterals : List (String × Value) → List String
  | [] => []
  | (key, v) :: rest => (Text.quoted key ++ ": " ++ literal v) :: fieldLiterals rest

end

/-- A value inside a message: a text as it is, anything else as a literal. -/
def display : Value → String
  | .str s => s
  | v => v.literal

/-- Whether a value may be a key: lists and objects may not. -/
def isKey : Value → Bool
  | .list _ => false
  | .obj _ => false
  | _ => true

/-- The items in a row. A text is the row of its characters and an object that of its keys;
other values are no rows. -/
def items? : Value → Option (List Value)
  | .list items => some items
  | .str s => some (s.toList.map fun c => .str (String.ofList [c]))
  | .obj fields => some (fields.map fun (key, _) => .str key)
  | _ => none

/-- The texts in a row. A row of anything that cannot be a key has none. -/
def row? (v : Value) : Option (List String) := do
  let items ← v.items?
  guard (items.all isKey)
  return items.filterMap fun item => match item with | .str s => some s | _ => none

end Value
end Indentation
