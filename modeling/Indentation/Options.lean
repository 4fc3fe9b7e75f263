import Indentation.Schema.Reader

/-! What a check goes by: how wide one step of indentation is, with the forms in which a
configuration says so, and the grammar profile of a language. A configuration that cannot be
understood means four spaces. Numbers are unbounded, here and in the messages of findings and
of the registry: limits of an interpreter, on the digits of a number in a text or on the depth
of a recursion, are left aside. -/

namespace Indentation

inductive IndentUnit where
  | spaces
  | tabs
  deriving DecidableEq, Repr

def IndentUnit.name : IndentUnit → String
  | .spaces => "spaces"
  | .tabs => "tabs"

def IndentUnit.choices : List (String × IndentUnit) := [("spaces", .spaces), ("tabs", .tabs)]

structure Options where
  size : Int
  unit : IndentUnit
  size_pos : 0 < size
  deriving DecidableEq, Repr

namespace Options

def fallback : Options := ⟨4, .spaces, by decide⟩

def tabs : Options := ⟨1, .tabs, by decide⟩

def spaces? (size : Int) : Option Options :=
  if h : 0 < size then some ⟨size, .spaces, h⟩ else none

/-- Columns of one indentation step: a tab is always one. -/
def step (options : Options) : Int :=
  match options.unit with
  | .tabs => 1
  | .spaces => options.size

theorem step_pos (options : Options) : 0 < options.step := by
  unfold step
  split
  · decide
  · exact options.size_pos

/-- An option under its name or, failing that, its other spelling. -/
def setting (fields : Fields) (name other : String) (otherwise : Value) : Value :=
  (Table.find? fields name).getD ((Table.find? fields other).getD otherwise)

/-- Options such as `indentSize` and `indentUnit`. Tabs ignore the size. -/
def ofSettings : Value → Options
  | .obj fields =>
    match setting fields "indentUnit" "indent_unit" (.str "spaces"),
        setting fields "indentSize" "indent_size" (.int 4) with
    | .str "tabs", _ => tabs
    | .str "spaces", .int size => (spaces? size).getD fallback
    | _, _ => fallback
  | _ => fallback

/-- A table of rules in which `indent` is a severity and a size or "tabs". -/
def ofRules (config : Value) : Options :=
  match (config.get? "rules").bind (·.get? "indent") with
  | some (.list [_, .str "tabs"]) => tabs
  | some (.list [_, .int size]) => (spaces? size).getD fallback
  | _ => fallback

/-- Options or a table of rules, told apart by the field `rules`. -/
def ofConfig (config : Value) : Options :=
  if (config.get? "rules").isSome then ofRules config else ofSettings config

open Schema in
def positive (v : Value) : Verdict { size : Int // 0 < size } :=
  (Read.integer v).andThen fun size =>
    if h : 0 < size then .accepted ⟨size, h⟩
    else .refused [.of (.broken "indent_size must be a positive integer") v]

/-- Options given field by field, where nothing falls back. -/
def read (form : Schema.Form) : Schema.Verdict Options :=
  (fun size unit => (⟨size.val, unit, size.property⟩ : Options))
    <$> form.optional "indent_size" ⟨4, by decide⟩ positive
    <*> form.optional "indent_unit" .spaces (Schema.Read.choice IndentUnit.choices)

end Options

/-- Where the trees of a language keep the statement that an if, a while or a do-while controls.
A for statement always controls its last child. -/
structure Profile where
  ifThen : Nat := 4
  ifElse : Nat := 6
  whileBody : Nat := 4
  doWhileBody : Nat := 1
  deriving DecidableEq, Repr

open Schema in
def Profile.read (form : Form) : Verdict Profile :=
  Profile.mk <$> form.optional "if_then" 4 Read.natural
    <*> form.optional "if_else" 6 Read.natural
    <*> form.optional "while_body" 4 Read.natural
    <*> form.optional "do_while_body" 1 Read.natural

end Indentation
