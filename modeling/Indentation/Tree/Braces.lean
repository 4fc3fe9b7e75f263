import Indentation.Tree.Basic

/-! The block view of a node. The start bracket is the first child that is an opening brace; the
nested elements are the children from there to the first closing brace that are no terminals.
The end bracket is the last child, whatever its text. -/

namespace Indentation.Tree

variable (tree : Tree) (i : tree.Id)

private def positionOf (text : String) : Option Nat :=
  (tree.node i).children.findIdx? fun c => (tree.node c).text = text

def opening? : Option Nat := tree.positionOf i "\x7b"

def closing? : Option Nat := tree.positionOf i "\x7d"

/-- The start bracket and the end bracket. -/
def braces? : Option (tree.Id × tree.Id) := do
  let position ← tree.opening? i
  let first ← (tree.node i).children[position]?
  let last ← (tree.node i).children.getLast?
  return (first, last)

/-- The nested elements. -/
def members : List tree.Id :=
  match tree.opening? i, tree.closing? i with
  | some first, some last =>
    (((tree.node i).children.take last).drop (first + 1)).filter fun c => !(tree.node c).isTerminal
  | _, _ => []

end Indentation.Tree
