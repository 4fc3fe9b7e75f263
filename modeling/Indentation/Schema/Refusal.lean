import Indentation.Value.Basic

/-! Why the fields of a record are refused. Each refusal names its place in the record,
its cause and what was found there; the report lists them in the order in which the
record declares its fields. The codes, the messages and the layout of a report are those
that pydantic documents for its validation errors, down to the page that explains each. -/

namespace Indentation.Schema

inductive Step where
  | name (field : String)
  | item (position : Nat)
  deriving DecidableEq, Repr

def Step.text : Step → String
  | .name field => field
  | .item position => toString position

inductive Cause where
  | missing
  | notInteger
  | unreadableInteger
  | fractional
  | tooLarge
  | notFinite
  | notText
  | notList
  | notOneOf (choices : List String)
  | notRecord (record : String)
  | negative
  | tooDeep
  /-- Refused by a rule of the record itself. -/
  | broken (reason : String)
  deriving DecidableEq, Repr

namespace Cause

def code : Cause → String
  | .missing => "missing"
  | .notInteger => "int_type"
  | .unreadableInteger => "int_parsing"
  | .fractional => "int_from_float"
  | .tooLarge => "int_parsing_size"
  | .notFinite => "finite_number"
  | .notText => "string_type"
  | .notList => "list_type"
  | .notOneOf _ => "enum"
  | .notRecord _ => "model_type"
  | .negative => "greater_than_equal"
  | .tooDeep => "recursion_depth_exceeded"
  | .broken _ => "value_error"

/-- The choices in quotes, the last two joined by "or". -/
def choiceText : List String → String
  | [] => ""
  | [only] => Text.quoted only
  | [left, right] => Text.quoted left ++ " or " ++ Text.quoted right
  | first :: rest => Text.quoted first ++ ", " ++ choiceText rest

def message : Cause → String
  | .missing => "Field required"
  | .notInteger => "Input should be a valid integer"
  | .unreadableInteger =>
    "Input should be a valid integer, unable to parse string as an integer"
  | .fractional => "Input should be a valid integer, got a number with a fractional part"
  | .tooLarge => "Unable to parse input string as an integer, exceeded maximum size"
  | .notFinite => "Input should be a finite number"
  | .notText => "Input should be a valid string"
  | .notList => "Input should be a valid list"
  | .notOneOf choices => "Input should be " ++ choiceText choices
  | .notRecord record => "Input should be a valid dictionary or instance of " ++ record
  | .negative => "Input should be greater than or equal to 0"
  | .tooDeep => "Recursion error - maximum depth exceeded"
  | .broken reason => "Value error, " ++ reason

end Cause

structure Refusal where
  path : List Step
  cause : Cause
  /-- What was found, as a literal. -/
  found : String
  foundType : String
  deriving DecidableEq, Repr

namespace Refusal

def of (cause : Cause) (found : Value) : Refusal := ⟨[], cause, found.literal, found.typeName⟩

def under (step : Step) (refusal : Refusal) : Refusal :=
  { refusal with path := step :: refusal.path }

/-- As many whole characters from the front as `budget` bytes hold. -/
private def fitting : Nat → List Char → List Char
  | _, [] => []
  | budget, c :: rest => if c.utf8Size ≤ budget then c :: fitting (budget - c.utf8Size) rest else []

/-- A literal of more than fifty bytes keeps twenty-five at its front and twenty-four at
its end. -/
def shortened (literal : String) : String :=
  if literal.utf8ByteSize ≤ 50 then literal
  else
    let cs := literal.toList
    String.ofList (fitting 25 cs ++ "...".toList ++ (fitting 24 cs.reverse).reverse)

/-- The page that explains a cause. -/
private def page (cause : Cause) : String :=
  "https://" ++ "errors.pydantic.dev/2.14/v/" ++ cause.code

def text (refusal : Refusal) : String :=
  let place := ".".intercalate (refusal.path.map Step.text)
  (if refusal.path = [] then "" else "\n" ++ place)
    ++ "\n  " ++ refusal.cause.message ++ " [type=" ++ refusal.cause.code
    ++ ", input_value=" ++ shortened refusal.found ++ ", input_type=" ++ refusal.foundType ++ "]"
    ++ "\n    For further information visit " ++ page refusal.cause

end Refusal

/-- A refused record with all its refusals. -/
structure Invalid where
  record : String
  refusals : List Refusal
  deriving DecidableEq, Repr

def Invalid.message (invalid : Invalid) : String :=
  let count := invalid.refusals.length
  toString count ++ " validation error" ++ (if count = 1 then "" else "s") ++ " for "
    ++ invalid.record ++ String.join (invalid.refusals.map Refusal.text)

end Indentation.Schema
