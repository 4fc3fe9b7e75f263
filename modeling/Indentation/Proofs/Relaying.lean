import Indentation.Proofs.CheckedChildren

/-! The same tree laid out anew. Lines are renamed without being joined, and columns are
changed line by line. Which nodes share a line is then as before, and so are the anchors,
the bodies and the children that have to stand in one column. -/

namespace Indentation

variable (line : Int → Int) (column : Int → Int → Int)

def Token.relaid (t : Token) : Token := { t with line := line t.line, column := column t.line t.column }

def Node.relaid {n : Nat} (node : Node n) : Node n :=
  { node with
    line := line node.line
    column := column node.line node.column
    stopLine := line node.stopLine
    token := node.token.map (Token.relaid line column) }

/-- The tokens are given with the layout, since those outside the tree may stay where they are. -/
abbrev Tree.relaid (tree : Tree) (tokens : List Token) : Tree where
  size := tree.size
  node i := (tree.node i).relaid line column
  tokens := tokens
  nonempty := tree.nonempty
  root_free := tree.root_free
  linked := tree.linked

namespace Tree

variable {line column} {tree : Tree} {tokens : List Token}

theorem members_relaid (i : tree.Id) : (tree.relaid line column tokens).members i = tree.members i := by
  have single : (fun c => !((tree.node c).relaid line column).isTerminal) = fun c => !(tree.node c).isTerminal := by
    funext c
    simp [Node.isTerminal, Node.relaid]
  have opening : (tree.relaid line column tokens).opening? i = tree.opening? i := rfl
  have closing : (tree.relaid line column tokens).closing? i = tree.closing? i := rfl
  unfold members
  rw [opening, closing, single]
  rfl

section Anchors

variable (apart : Function.Injective line)
include apart

theorem lineParent?_relaid (i : tree.Id) : (tree.relaid line column tokens).lineParent? i = tree.lineParent? i := by
  apply Option.ext
  intro p
  rw [lineParent?_eq_some, lineParent?_eq_some]
  simp only [Node.relaid, apart.eq_iff]

theorem outermostWithin_relaid (fuel : Nat) (i : tree.Id) :
    (tree.relaid line column tokens).outermostWithin fuel i = tree.outermostWithin fuel i := by
  induction fuel generalizing i with
  | zero => rfl
  | succ fuel ih =>
    unfold outermostWithin
    rw [lineParent?_relaid apart]
    cases tree.lineParent? i with
    | none => rfl
    | some p => exact ih p

theorem lineStart_relaid (i : tree.Id) : (tree.relaid line column tokens).lineStart i = tree.lineStart i := by
  have ends : (fun s => decide (line (tree.node s).stopLine = line (tree.node i).line)) =
      fun s => decide ((tree.node s).stopLine = (tree.node i).line) := by
    funext s
    exact decide_eq_decide.2 apart.eq_iff
  unfold lineStart
  dsimp only [Node.relaid]
  cases (tree.node i).parent with
  | none => rfl
  | some p =>
    exact congrArg (fun test => if i ∈ (tree.node p).children then
      Except.ok ((((tree.node p).children.takeWhile (· ≠ i)).find? test).getD i) else .error (Lost.unlisted i)) ends

theorem leftmost_relaid (i : tree.Id) : (tree.relaid line column tokens).leftmost i = tree.leftmost i := by
  have climbed : (tree.relaid line column tokens).outermost? i = tree.outermost? i :=
    outermostWithin_relaid apart tree.size i
  unfold leftmost
  rw [climbed]
  cases tree.outermost? i with
  | none => rfl
  | some top => exact lineStart_relaid apart top

theorem anchorWithin_relaid (rounds : Nat) (i : tree.Id) :
    (tree.relaid line column tokens).anchorWithin rounds i = tree.anchorWithin rounds i := by
  induction rounds generalizing i with
  | zero => rfl
  | succ rounds ih =>
    unfold anchorWithin
    rw [leftmost_relaid apart]
    cases tree.leftmost i with
    | error lost => rfl
    | ok left =>
      simp only [Node.relaid, apart.eq_iff]
      rw [ih left]

theorem anchor_relaid (i : tree.Id) : (tree.relaid line column tokens).anchor i = tree.anchor i :=
  anchorWithin_relaid apart tree.size i

theorem anchorOf_relaid (i : tree.Id) : (tree.relaid line column tokens).anchorOf i = tree.anchorOf i := by
  unfold anchorOf
  rw [anchor_relaid apart]
  cases tree.anchor i with
  | ok anchor => rfl
  | error lost => rfl

theorem ending?_relaid (i : tree.Id) : (tree.relaid line column tokens).ending? i = tree.ending? i := by
  have braced : (tree.relaid line column tokens).braces? i = tree.braces? i := rfl
  rw [ending?_eq_braces, ending?_eq_braces, braced]
  cases tree.braces? i with
  | none => rfl
  | some ends => simp only [Node.relaid, apart.eq_iff]

end Anchors
end Tree

namespace Check.Checker

variable {line column} {tree : Tree} {tokens : List Token}

theorem controlledKind_relaid (body : tree.Id) :
    controlledKind (tree.relaid line column tokens) body = controlledKind tree body := by
  unfold controlledKind
  dsimp only [Node.relaid]
  split <;> rfl

theorem isLoose_relaid (apart : Function.Injective line) (i body : tree.Id) :
    isLoose (tree.relaid line column tokens) i body = isLoose tree i body := by
  have lines : decide (line (tree.node body).line ≠ line (tree.node i).line) =
      decide ((tree.node body).line ≠ (tree.node i).line) := decide_eq_decide.2 apart.ne_iff
  rw [isLoose_eq, isLoose_eq, controlledKind_relaid]
  exact congrArg (!hasOwnRule (controlledKind tree body) && ·) lines

theorem checked_relaid (apart : Function.Injective line) (checker : Checker) (i : tree.Id) :
    checker.checked (tree.relaid line column tokens) i = checker.checked tree i := by
  have loose : isLoose (tree.relaid line column tokens) i = isLoose tree i :=
    funext fun body => isLoose_relaid apart i body
  have slots : checker.slots (tree.relaid line column tokens) i = checker.slots tree i := by
    unfold slots
    rfl
  by_cases unit : (tree.node i).kind = .sourceUnit
  · rw [checked_sourceUnit unit]
    exact checked_sourceUnit unit
  · by_cases braced : (tree.node i).kind.hasBraces
    · rw [checked_braces braced, ← Tree.ending?_relaid apart, ← Tree.members_relaid]
      exact checked_braces braced
    · have checks := checksBodies_iff.2 ⟨unit, braced⟩
      rw [checked_bodies checks, ← loose, ← slots]
      exact checked_bodies checks

end Check.Checker
end Indentation
