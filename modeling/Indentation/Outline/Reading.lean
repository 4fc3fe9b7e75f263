import Indentation.Schema.Reader
import Indentation.Outline.Literal

/-! Nodes read from records of dynamic values: one node over children that are built
already, a nested record built from the leaves up, or a whole nested record at once. -/

namespace Indentation.Outline

open Schema

/-- A node's own data beside its children, if every field is accepted. -/
def draft (form : Form) (children : Verdict (List Outline)) :
    Verdict (Draft × List Outline) :=
  (fun kind text line column stopLine children channel type =>
      ({ kind, text, line, column, stopLine, channel, type }, children))
    <$> form.required "kind" (Read.choice Kind.choices)
    <*> form.optional "text" none (Read.optional Read.text)
    <*> form.optional "line" none (Read.optional Read.integer)
    <*> form.optional "column" none (Read.optional Read.integer)
    <*> form.optional "stop_line" none (Read.optional Read.integer)
    <*> children
    <*> form.optional "channel" 0 Read.integer
    <*> form.optional "token_type" 0 Read.integer

/-- The position is looked at only when every field was accepted. -/
def readOver (form : Form) (children : Verdict (List Outline)) : Verdict Outline :=
  (draft form children).andThen fun (draft, children) =>
    form.insist ((make draft children).mapError Unplaced.message)

private def shownOver (children : List Outline) : Fields → List String
  | [] => []
  | (key, v) :: rest =>
    let shown := if key = "children" then "[" ++ ", ".intercalate (literals children) ++ "]" else v.literal
    (Text.quoted key ++ ": " ++ shown) :: shownOver children rest

/-- One node whose children, where the record lists any, have been built before it. -/
def build (fields : Fields) (children : Option (List Outline)) :
    Except Invalid Outline :=
  let verdict :=
    match children with
    | some children =>
      readOver ⟨fields, fun _ => "\x7b" ++ ", ".intercalate (shownOver children fields) ++ "\x7d"⟩
        (.accepted children)
    | none =>
      let form : Form := { fields }
      readOver form (form.optional "children" [] (Read.list fun v => .refused [.of (.notRecord "ParseNode") v]))
  verdict.toExcept "ParseNode"

/-- A terminal given by its text and its place alone. -/
def buildTerminal (text line column : Value) : Except Invalid Outline :=
  let form : Form :=
    { fields := [("kind", .str Kind.terminal.name), ("text", text), ("line", line), ("column", column)]
      shown := fun _ =>
        "\x7b'kind': " ++ Kind.terminal.literal ++ ", 'text': " ++ text.literal ++ ", 'line': " ++ line.literal
          ++ ", 'column': " ++ column.literal ++ "\x7d" }
  (readOver form (.accepted [])).toExcept "ParseNode"

private theorem sizeOf_nested {fields : Fields} {key : String} {items : List Value} {item : Value}
    (found : Table.find? fields key = some (.list items)) (member : item ∈ items) :
    sizeOf item < sizeOf (Value.obj fields) := by
  have inList := List.sizeOf_lt_of_mem member
  have inFields := List.sizeOf_lt_of_mem (Table.mem_of_find? found)
  simp only [Prod.mk.sizeOf_spec, Value.list.sizeOf_spec] at inFields
  simp only [Value.obj.sizeOf_spec]
  omega

/-- A nested record, each node built after its children. A row of three stands for a terminal.
The first node that is refused decides. -/
def assemble (v : Value) : Except Invalid Outline :=
  match v with
  | .obj fields =>
    match _found : Table.find? fields "children" with
    | some (.list items) => do
      build fields (some (← items.attach.mapM fun ⟨item, _⟩ => assemble item))
    | _ => build fields none
  | .list [text, line, column] => buildTerminal text line column
  | v => .error ⟨"ParseNode", [.of (.notRecord "ParseNode") v]⟩
termination_by sizeOf v
decreasing_by
  exact sizeOf_nested _found ‹item ∈ items›

/-- How many levels of a nested record are read in one go. -/
def depthLimit : Nat := 255

/-- A nested record of so many levels at most. -/
def readWithin : Nat → Value → Verdict Outline
  | 0, v => .refused [.of .tooDeep v]
  | levels + 1, .obj fields =>
    let form : Form := { fields }
    readOver form (form.optional "children" [] (Read.list (readWithin levels)))
  | _ + 1, v => .refused [.of (.notRecord "ParseNode") v]

/-- A nested record read in one go. All refusals are kept. -/
def read (v : Value) : Verdict Outline := readWithin depthLimit v

end Indentation.Outline
