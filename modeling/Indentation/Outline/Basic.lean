import Indentation.Kind

/-! Recursive trees as language front ends hand them in. A node may leave out where it
stands: its line and column then come from its first child, the line it ends on from its
last, and its text is that of its children in a row. -/

namespace Indentation

namespace Outline

/-- A node's own data once it has been placed. -/
structure Label where
  kind : Kind
  text : Option String
  line : Int
  column : Int
  stopLine : Int
  channel : Int := 0
  type : Int := 0
  deriving DecidableEq, Repr, Nonempty

/-- A node's own data as a front end gives it. -/
structure Draft where
  kind : Kind
  text : Option String := none
  line : Option Int := none
  column : Option Int := none
  stopLine : Option Int := none
  channel : Int := 0
  type : Int := 0
  deriving DecidableEq, Repr

/-- A node that neither says where it starts nor has children that do. -/
structure Unplaced where
  kind : Kind
  deriving DecidableEq, Repr

def Unplaced.message (e : Unplaced) : String :=
  "Node of kind '" ++ e.kind.name ++ "' has no position"

end Outline

inductive Outline where
  | node (label : Outline.Label) (children : List Outline)
  deriving Repr, Nonempty

namespace Outline

def label : Outline → Label
  | node label _ => label

def children : Outline → List Outline
  | node _ children => children

def joinedText (children : List Outline) : String :=
  String.join (children.map fun child => child.label.text.getD "")

/-- A node that starts at a known place. -/
def placed (draft : Draft) (line column : Int) (children : List Outline) : Outline :=
  let stopLine := draft.stopLine <|> children.getLast?.map (·.label.stopLine)
  node
    { kind := draft.kind
      text := draft.text <|> (if children.isEmpty then none else some (joinedText children))
      line := line
      column := column
      stopLine := stopLine.getD line
      channel := draft.channel
      type := draft.type } children

/-- Places a node over children that are placed already. -/
def make (draft : Draft) (children : List Outline) : Except Unplaced Outline :=
  let line := draft.line <|> children.head?.map (·.label.line)
  let column := draft.column <|> children.head?.map (·.label.column)
  match line, column with
  | some line, some column => .ok (placed draft line column children)
  | _, _ => .error ⟨draft.kind⟩

mutual

def size : Outline → Nat
  | node _ children => 1 + sizeAll children

def sizeAll : List Outline → Nat
  | [] => 0
  | o :: rest => size o + sizeAll rest

end

end Outline
end Indentation
