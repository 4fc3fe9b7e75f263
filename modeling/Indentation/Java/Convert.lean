import Indentation.Java.Config
import Indentation.Java.Cst
import Indentation.Text.Utf8
import Indentation.Tree.Flatten

/-! From the parser's tree to the outline that is checked. Extra nodes, which are comments, go to
the hidden channel and missing nodes, which error recovery inserted, are dropped, each with all
below it. A node without children becomes a terminal. Children of a spliced type are lifted
into their parent, and a child of a statement type in a statement parent is wrapped in a
statement node. -/

namespace Indentation.Java

open Text.Utf8 (Byte)

/-- The node text: the bytes of a range decoded, whole characters or not. -/
def textOf (source : List Byte) (span : Span) : String :=
  String.ofList (Text.Utf8.decode (Text.Utf8.slice source span.firstByte span.endByte))

namespace Cst.Label

def line (label : Label) : Int := label.span.row + 1

/-- A comment on the hidden channel. -/
def hiddenToken (label : Label) (source : List Byte) : Token :=
  ⟨textOf source label.span, label.line, label.span.column, Token.hiddenChannel, label.symbol⟩

def terminal (label : Label) (source : List Byte) : Outline :=
  .placed { kind := .terminal, text := some (textOf source label.span), type := label.symbol }
    label.line label.span.column []

/-- A node over the children that are left; without any it is empty and ends where it starts. -/
def composite (label : Label) (config : Config) (children : List Outline) : Outline :=
  let kind := config.kind label.type
  if children.isEmpty then
    .placed { kind, text := some "", stopLine := some label.line } label.line label.span.column []
  else .placed { kind } label.line label.span.column children

end Cst.Label

/-- The statement node that a child is wrapped in. -/
def statement (child : Outline) : Outline :=
  .placed { kind := .statement } child.label.line child.label.column [child]

/-- What stands for a converted child in its parent: its own children if it is spliced. -/
def adopted (config : Config) (parent type : String) (child : Outline) : List Outline :=
  if config.splices parent type then child.children
  else if config.isStatement parent type then [statement child]
  else [child]

variable (config : Config) (source : List Byte)

mutual

/-- The hidden tokens of a tree, in order, and its outline if it belongs to the tree. -/
def convert : Cst → List Token × Option Outline
  | .node label children =>
    if label.isExtra then ([label.hiddenToken source], none)
    else if label.isMissing then ([], none)
    else if children.isEmpty then ([], some (label.terminal source))
    else
      let (hidden, kept) := convertAll label.type children
      (hidden, some (label.composite config kept))

def convertAll (parent : String) : List Cst → List Token × List Outline
  | [] => ([], [])
  | child :: rest =>
    let (hidden, outline) := convert child
    let (others, kept) := convertAll parent rest
    (hidden ++ others, (outline.map (adopted config parent child.label.type)).getD [] ++ kept)

end

end Indentation.Java
