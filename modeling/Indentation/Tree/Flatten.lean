import Indentation.Outline.Basic
import Indentation.Tree.Entry

/-! A recursive tree laid out as a row: nodes are numbered in pre-order, so a subtree is a
run of numbers that begins with its root. Terminals become tokens. -/

namespace Indentation.Outline

/-- The numbers of siblings whose first one has a given number. -/
def starts (first : Nat) : List Outline → List Nat
  | [] => []
  | o :: rest => first :: starts (first + o.size) rest

def Label.token? (label : Label) : Option Token :=
  if label.kind = .terminal then
    some ⟨label.text.getD "", label.line, label.column, label.channel, label.type⟩
  else none

def Label.entry (label : Label) (number : Nat) (parent : Option Nat) (children : List Nat) : Entry where
  index := number
  kind := label.kind
  parent := parent.map Int.ofNat
  children := children.map Int.ofNat
  line := label.line
  column := label.column
  stopLine := label.stopLine
  text := label.text.getD ""
  token := label.token?

mutual

/-- The entries of a tree whose root has a given number. -/
def entries (parent : Option Nat) (number : Nat) : Outline → List Entry
  | node label children =>
    label.entry number parent (starts (number + 1) children)
      :: entriesAll number (number + 1) children

def entriesAll (parent number : Nat) : List Outline → List Entry
  | [] => []
  | o :: rest => entries (some parent) number o ++ entriesAll parent (number + o.size) rest

end

/-- The tree of an outline, with comments among its tokens but not among its nodes. -/
def toTree (root : Outline) (hidden : List Token) : Except Tree.Flaw Tree :=
  let row := entries none 0 root
  Tree.ofEntries row (some (row.filterMap (·.token) ++ hidden))

end Indentation.Outline
