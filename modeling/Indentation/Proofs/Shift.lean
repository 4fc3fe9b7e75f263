import Indentation.Proofs.Faithful
import Indentation.Proofs.Relaying

/-! Moving the tokens of one line to the side. Everything that starts with a moved token
moves with it, so the tree is the old one with the columns of that line changed, and the
tokens of all other lines are the old ones. -/

namespace Indentation

section

variable (line : Int → Int) (column : Int → Int → Int)

def Entry.relaid (entry : Entry) : Entry :=
  { entry with
    line := line entry.line
    column := column entry.line entry.column
    stopLine := line entry.stopLine
    token := entry.token.map (Token.relaid line column) }

namespace Outline

def Label.relaid (label : Label) : Label :=
  { label with
    line := line label.line
    column := column label.line label.column
    stopLine := line label.stopLine }

mutual

def relaid : Outline → Outline
  | node label children => node (label.relaid line column) (relaidAll children)

def relaidAll : List Outline → List Outline
  | [] => []
  | o :: rest => relaid o :: relaidAll rest

end

mutual

theorem size_relaid (o : Outline) : (o.relaid line column).size = o.size := by
  cases o with
  | node label children => rw [relaid, size, size, sizeAll_relaidAll children]

theorem sizeAll_relaidAll (os : List Outline) : sizeAll (relaidAll line column os) = sizeAll os := by
  cases os with
  | nil => rfl
  | cons o rest => rw [relaidAll, sizeAll, sizeAll, size_relaid o, sizeAll_relaidAll rest]

end

theorem starts_relaidAll (number : Nat) (os : List Outline) :
    starts number (relaidAll line column os) = starts number os := by
  induction os generalizing number with
  | nil => rfl
  | cons o rest ih => rw [relaidAll, starts, starts, size_relaid, ih]

theorem Label.entry_relaid (label : Label) (number : Nat) (parent : Option Nat) (children : List Nat) :
    (label.relaid line column).entry number parent children = (label.entry number parent children).relaid line column := by
  have token : (label.relaid line column).token? = label.token?.map (Token.relaid line column) := by
    by_cases single : label.kind = .terminal
    · simp [Label.token?, Label.relaid, Token.relaid, single]
    · simp [Label.token?, Label.relaid, single]
  unfold Label.entry Entry.relaid
  rw [token]
  rfl

mutual

theorem entries_relaid (parent : Option Nat) (number : Nat) (o : Outline) :
    entries parent number (o.relaid line column) = (entries parent number o).map (Entry.relaid line column) := by
  cases o with
  | node label children =>
    rw [relaid, entries, entries, List.map_cons, starts_relaidAll, Label.entry_relaid,
      entriesAll_relaidAll number (number + 1) children]

theorem entriesAll_relaidAll (parent number : Nat) (os : List Outline) :
    entriesAll parent number (relaidAll line column os) =
      (entriesAll parent number os).map (Entry.relaid line column) := by
  cases os with
  | nil => rfl
  | cons o rest =>
    rw [relaidAll, entriesAll, entriesAll, List.map_append, size_relaid, entries_relaid (some parent) number o,
      entriesAll_relaidAll parent (number + o.size) rest]

end

theorem tokens_relaid (o : Outline) : (o.relaid line column).tokens = o.tokens.map (Token.relaid line column) := by
  rw [tokens, entries_relaid, List.filterMap_map, tokens, List.map_filterMap]
  rfl

end Outline

namespace Tree

variable {line column}

theorem Holds.eq_relaid {tree next : Tree} {row : List Entry} {tokens others : Option (List Token)}
    (holds : Holds tree row tokens) (anew : Holds next (row.map (Entry.relaid line column)) others) :
    next = tree.relaid line column next.tokens := by
  have sizes : next.size = tree.size := by rw [holds.size, anew.size, List.length_map]
  have nodes := holds.node
  have again := anew.node
  obtain ⟨size, node, _, _, _, _⟩ := tree
  obtain ⟨size', node', listed, _, _, _⟩ := next
  obtain rfl : size' = size := sizes
  have same : node' = fun i => (node i).relaid line column := by
    funext i
    obtain ⟨entry, found, old⟩ := nodes i
    obtain ⟨other, moved, new⟩ := again i
    rw [List.getElem?_map, found] at moved
    obtain rfl : entry.relaid line column = other := Option.some.inj moved
    exact new.trans (congrArg (Node.relaid line column) old.symm)
  subst same
  rfl

theorem toTree_relaid {root : Outline} {hidden : List Token} {tree : Tree}
    (flattened : root.toTree hidden = .ok tree) :
    ∃ tokens, (root.relaid line column).toTree hidden = .ok (tree.relaid line column tokens) := by
  obtain ⟨next, again⟩ := exists_toTree (root.relaid line column) hidden
  have anew := holds_of_accepted again
  rw [Outline.entries_relaid] at anew
  refine ⟨next.tokens, ?_⟩
  rw [again, ← (holds_of_accepted flattened).eq_relaid anew]

end Tree
end

/-- Columns after a line was moved to the side. -/
def moved (line offset : Int) (l column : Int) : Int := if l = line then column + offset else column

namespace Outline

variable (line offset : Int)

mutual

/-- The tokens of a line stand further to the right, and what they begin starts with them. -/
def shifted : Outline → Outline
  | node label [] => node { label with column := moved line offset label.line label.column } []
  | node label (first :: rest) =>
    node { label with column := (shifted first).label.column } (shifted first :: shiftedAll rest)

def shiftedAll : List Outline → List Outline
  | [] => []
  | o :: rest => shifted o :: shiftedAll rest

end

mutual

theorem shifted_eq {o : Outline} (derived : o.Derived) : o.shifted line offset = o.relaid id (moved line offset) := by
  cases derived with
  | token => rfl
  | @composite label first rest _ starts column _ parts =>
    have same := shifted_eq (parts first List.mem_cons_self)
    have others := shiftedAll_eq rest fun o member => parts o (List.mem_cons_of_mem _ member)
    have head : (first.relaid id (moved line offset)).label.column = moved line offset label.line label.column := by
      rw [starts, column]
      cases first
      rfl
    rw [shifted, relaid, relaidAll, same, others, head]
    rfl

theorem shiftedAll_eq (os : List Outline) (parts : ∀ o ∈ os, o.Derived) :
    shiftedAll line offset os = relaidAll id (moved line offset) os := by
  cases os with
  | nil => rfl
  | cons o rest =>
    rw [shiftedAll, relaidAll, shifted_eq (parts o List.mem_cons_self),
      shiftedAll_eq rest fun o member => parts o (List.mem_cons_of_mem _ member)]

end

end Outline
end Indentation
