import Indentation.Value.Basic

/-! A value as JSON text: a blank after each comma and colon, ASCII only. -/

namespace Indentation.Value

mutual

def json : Value → String
  | .null => "null"
  | .bool true => "true"
  | .bool false => "false"
  | .int n => toString n
  | .float d => d.json
  | .str s => Text.escaped s
  | .list items => "[" ++ ", ".intercalate (jsonItems items) ++ "]"
  | .obj fields => "\x7b" ++ ", ".intercalate (jsonFields fields) ++ "\x7d"

def jsonItems : List Value → List String
  | [] => []
  | v :: rest => json v :: jsonItems rest

def jsonFields : List (String × Value) → List String
  | [] => []
  | (key, v) :: rest => (Text.escaped key ++ ": " ++ json v) :: jsonFields rest

end

end Indentation.Value
