import Indentation.Correction
import Indentation.Tree.Basic

/-! What a line is measured from. The anchor of a node, `first_node_of_line`, is the leftmost
node of the physical line it starts on: the outermost ancestor that starts there, never past
a source unit, or an earlier sibling of it that still ends there, followed up to the line on
which that one starts. The correct indent of a node, `correct_indent_of`, is its own column
unless the correction table has an entry for it, or for an ancestor that starts on the same
line; the first such correction reprojects the column. -/

namespace Indentation.Tree

/-- Why there is no first node of the line. -/
inductive Lost where
  /-- The node's parent does not list it. -/
  | unlisted (number : Nat)
  /-- The parent links run in a circle. -/
  | circular
  deriving DecidableEq, Repr

variable (tree : Tree)

/-- The parent, if it starts on the same line and is not a source unit. -/
def lineParent? (i : tree.Id) : Option tree.Id :=
  (tree.node i).parent.filter fun p =>
    (tree.node i).line = (tree.node p).line && (tree.node p).kind ≠ .sourceUnit

/-- The outermost ancestor on the line, within a number of nodes. -/
def outermostWithin : Nat → tree.Id → Option tree.Id
  | 0, _ => none
  | fuel + 1, i =>
    match tree.lineParent? i with
    | none => some i
    | some p => outermostWithin fuel p

/-- The outermost ancestor that starts on a node's line. A climb that passes as many nodes
as there are without an end has met one of them twice and has no end. -/
def outermost? (i : tree.Id) : Option tree.Id := tree.outermostWithin tree.size i

/-- The first of the earlier siblings that still end on the line a node starts on, such as
modifiers, or the node itself. -/
def lineStart (i : tree.Id) : Except Lost tree.Id :=
  match (tree.node i).parent with
  | none => .ok i
  | some p =>
    let siblings := (tree.node p).children
    if i ∈ siblings then
      .ok (((siblings.takeWhile (· ≠ i)).find? fun s => (tree.node s).stopLine = (tree.node i).line).getD i)
    else .error (.unlisted i)

/-- One round: climb, then look left. -/
def leftmost (i : tree.Id) : Except Lost tree.Id :=
  match tree.outermost? i with
  | none => .error .circular
  | some top => tree.lineStart top

/-- Goes on while the leftmost node starts on an earlier line, for so many rounds. -/
def anchorWithin : Nat → tree.Id → Except Lost tree.Id
  | 0, i => .ok i
  | rounds + 1, i =>
    match tree.leftmost i with
    | .error lost => .error lost
    | .ok left => if (tree.node left).line = (tree.node i).line then .ok left else anchorWithin rounds left

/-- The first node of the line on which a node starts. -/
def anchor (i : tree.Id) : Except Lost tree.Id := tree.anchorWithin tree.size i

variable (table : Corrections)

/-- The first correction on a node and its ancestors that start on a line. -/
def correctionWithin (line : Int) : Nat → tree.Id → Option Correction
  | 0, _ => none
  | fuel + 1, i =>
    match Corrections.of? table i.val with
    | some correction => some correction
    | none =>
      match (tree.node i).parent with
      | none => none
      | some p => if (tree.node p).line = line then correctionWithin line fuel p else none

/-- The correct indent of a node, given the corrections recorded so far. -/
def indentOf (i : tree.Id) : Int :=
  let node := tree.node i
  match tree.correctionWithin table node.line tree.size i with
  | some correction => correction.reproject node.column
  | none => node.column

end Indentation.Tree
