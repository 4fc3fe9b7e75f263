import Indentation.Kind
import Indentation.Token

/-! Syntax trees held as a numbered row of nodes, the root first. Links are positions in
that row, so following one never leaves it. A listed child names its lister as parent and
the root names none; a parent, though, need not list every node that names it. -/

namespace Indentation

/-- A node among `n`. -/
structure Node (n : Nat) where
  kind : Kind
  parent : Option (Fin n)
  children : List (Fin n)
  line : Int
  column : Int
  stopLine : Int
  text : String
  token : Option Token
  deriving Repr

/-- Whether the node is a single token. -/
def Node.isTerminal {n : Nat} (node : Node n) : Bool := node.token.isSome

structure Tree where
  size : Nat
  node : Fin size → Node size
  /-- In source order, with the comments that stand outside the tree. -/
  tokens : List Token
  nonempty : 0 < size
  root_free : (node ⟨0, nonempty⟩).parent = none
  linked : ∀ {p c : Fin size}, c ∈ (node p).children → (node c).parent = some p

namespace Tree

/-- A place in the tree. -/
abbrev Id (tree : Tree) := Fin tree.size

def root (tree : Tree) : tree.Id := ⟨0, tree.nonempty⟩

/-- The node with a number; a negative number counts from the end. -/
def locate? (tree : Tree) (number : Int) : Option tree.Id := Row.place? tree.size number

end Tree
end Indentation
