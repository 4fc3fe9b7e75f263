import Indentation.Check.Run
import Indentation.Proofs.Anchoring

/-! Where nodes belong, said without corrections. The column required of a node follows
from its parent and from where the anchor of its parent, or the parent of a statement,
belongs; and a node belongs where the nearest misplaced one of its line puts it. Both go to
earlier nodes only, so in a tree numbered in pre-order they are a plain recursion. -/

namespace Indentation

def Kind.hasBraces : Kind → Bool
  | .block | .contractDefinition | .structDefinition | .enumDefinition | .importDirective
  | .functionCallArguments => true
  | _ => false

/-- Statements that control other statements. -/
def Kind.controls : Kind → Bool
  | .ifStatement | .whileStatement | .doWhileStatement | .forStatement => true
  | _ => false

theorem Kind.ne_sourceUnit_of_hasBraces {kind : Kind} (braced : kind.hasBraces) : kind ≠ .sourceUnit := by
  rintro rfl
  cases braced

theorem Kind.ne_sourceUnit_of_controls {kind : Kind} (controls : kind.controls) : kind ≠ .sourceUnit := by
  rintro rfl
  cases controls

theorem Kind.bare_of_controls {kind : Kind} (controls : kind.controls) : ¬ kind.hasBraces := by
  revert controls
  cases kind <;> simp [Kind.controls, Kind.hasBraces]

namespace Tree

variable (tree : Tree) (i : tree.Id)

/-- The end bracket of a body of several lines: the last child of a node, if the first of
its children that is an opening brace stands on another line. -/
def ending? : Option tree.Id :=
  match (tree.node i).children.find? (fun c => (tree.node c).text = "\x7b"), (tree.node i).children.getLast? with
  | some first, some last => if (tree.node first).line = (tree.node last).line then none else some last
  | _, _ => none

/-- The first child with a text stands at a position among the children. -/
def FirstAt (text : String) (position : Nat) : Prop :=
  (∃ c ∈ (tree.node i).children[position]?, (tree.node c).text = text) ∧
    ∀ earlier < position, ∀ c ∈ (tree.node i).children[earlier]?, (tree.node c).text ≠ text

instance (text : String) (position : Nat) : Decidable (tree.FirstAt i text position) :=
  inferInstanceAs (Decidable (_ ∧ _))

/-- Strictly between the first opening brace among the children and the first closing one. -/
def Between (position : Nat) : Prop :=
  (∃ opening < position, tree.FirstAt i "\x7b" opening) ∧
    ∃ closing < (tree.node i).children.length, position < closing ∧ tree.FirstAt i "\x7d" closing

instance (position : Nat) : Decidable (tree.Between i position) :=
  inferInstanceAs (Decidable (_ ∧ _))

/-- The nested elements of a body of several lines, by their positions among the children. -/
def nested : List tree.Id :=
  if (tree.ending? i).isSome then
    ((tree.node i).children.zipIdx.filter fun (c, position) =>
      (tree.node c).token.isNone && decide (tree.Between i position)).map (·.1)
  else []

variable {tree i}

theorem mem_nested {c : tree.Id} :
    c ∈ tree.nested i ↔ (tree.ending? i).isSome ∧ (tree.node c).token = none ∧
      ∃ position, (tree.node i).children[position]? = some c ∧ tree.Between i position := by
  rw [nested]
  split
  next ends =>
    simp [ends, List.mk_mem_zipIdx_iff_getElem?, and_left_comm]
  next bare => simp [bare]

theorem getLast?_of_ending? {last : tree.Id} (ends : tree.ending? i = some last) :
    (tree.node i).children.getLast? = some last := by
  unfold ending? at ends
  split at ends
  next _ _ _ final =>
    split at ends
    next => cases ends
    next =>
      cases ends
      exact final
  next => cases ends

variable (tree i)

/-- The kind that a statement goes by: that of its first child, if it has one. -/
def goesBy : Kind :=
  if (tree.node i).kind = .statement then
    ((tree.node i).children.head?.map fun c => (tree.node c).kind).getD .statement
  else (tree.node i).kind

end Tree

namespace Check.Checker

variable (checker : Checker) {tree : Tree}

/-- The children of a statement in the slots that the profile governs. -/
def governed (tree : Tree) (i : tree.Id) : List tree.Id :=
  let children := (tree.node i).children
  match (tree.node i).kind with
  | .ifStatement => [checker.profile.ifThen, checker.profile.ifElse].filterMap (children[·]?)
  | .whileStatement => children[checker.profile.whileBody]?.toList
  | .doWhileStatement => children[checker.profile.doWhileBody]?.toList
  | .forStatement => children.getLast?.toList
  | _ => []

/-- An unbraced statement on a line of its own, and no chained condition. -/
def isLoose (tree : Tree) (i body : tree.Id) : Bool :=
  tree.goesBy body ≠ .block && tree.goesBy body ≠ .ifStatement && (tree.node body).line ≠ (tree.node i).line

/-- The children of a node that have to stand in one column. -/
def checked (tree : Tree) (i : tree.Id) : List tree.Id :=
  if (tree.node i).kind = .sourceUnit then
    (tree.node i).children.filter fun c => (tree.node c).text ≠ "<EOF>"
  else if (tree.node i).kind.hasBraces then tree.nested i
  else (checker.governed tree i).filter (isLoose tree i)

/-- How a node has a column for one of its children. -/
inductive Requires (tree : Tree) (p n : tree.Id) : Prop where
  | topLevel (unit : (tree.node p).kind = .sourceUnit) (listed : n ∈ (tree.node p).children)
      (text : (tree.node n).text ≠ "<EOF>")
  | nested {position : Nat} (braced : (tree.node p).kind.hasBraces) (long : (tree.ending? p).isSome)
      (listed : (tree.node p).children[position]? = some n) (between : tree.Between p position)
      (composite : (tree.node n).token = none)
  | statement (slot : n ∈ checker.governed tree p) (unbraced : tree.goesBy n ≠ .block)
      (unchained : tree.goesBy n ≠ .ifStatement) (apart : (tree.node n).line ≠ (tree.node p).line)

variable {checker} in
theorem controls_of_governed {p n : tree.Id} (slot : n ∈ checker.governed tree p) : (tree.node p).kind.controls := by
  rw [governed] at slot
  revert slot
  split <;> simp_all [Kind.controls]

variable {checker} in
theorem mem_checked {p n : tree.Id} : n ∈ checker.checked tree p ↔ checker.Requires tree p n := by
  rw [checked]
  split
  next unit =>
    constructor
    · intro member
      obtain ⟨listed, text⟩ := List.mem_filter.1 member
      exact .topLevel unit listed (of_decide_eq_true text)
    · rintro (⟨_, listed, text⟩ | ⟨braced, _⟩ | ⟨slot, _⟩)
      · exact List.mem_filter.2 ⟨listed, decide_eq_true text⟩
      · exact absurd unit (Kind.ne_sourceUnit_of_hasBraces braced)
      · exact absurd unit (Kind.ne_sourceUnit_of_controls (controls_of_governed slot))
  next other =>
    split
    next braced =>
      rw [Tree.mem_nested]
      constructor
      · rintro ⟨long, composite, position, listed, between⟩
        exact .nested braced long listed between composite
      · rintro (⟨unit, _⟩ | ⟨_, long, listed, between, composite⟩ | ⟨slot, _⟩)
        · exact absurd unit other
        · exact ⟨long, composite, _, listed, between⟩
        · exact absurd braced (Kind.bare_of_controls (controls_of_governed slot))
    next bare =>
      constructor
      · intro member
        obtain ⟨slot, loose⟩ := List.mem_filter.1 member
        simp only [isLoose, Bool.and_eq_true, decide_eq_true_eq] at loose
        exact .statement slot loose.1.1 loose.1.2 loose.2
      · rintro (⟨unit, _⟩ | ⟨braced, _⟩ | ⟨slot, unbraced, unchained, apart⟩)
        · exact absurd unit other
        · exact absurd braced bare
        · exact List.mem_filter.2 ⟨slot, by simp [isLoose, unbraced, unchained, apart]⟩

variable {checker} in
theorem checked_nested {p : tree.Id} (braced : (tree.node p).kind.hasBraces) :
    checker.checked tree p = tree.nested p := by
  rw [checked, if_neg (Kind.ne_sourceUnit_of_hasBraces braced), if_pos braced]

mutual

/-- The column required of a node, if its parent has one for it. -/
def required (preorder : Tree.Preorder tree) (i : tree.Id) : Option Int :=
  match _named : (tree.node i).parent with
  | none => none
  | some p => if i ∈ checker.checked tree p then some (base preorder p) else none
termination_by (i.val, 0)
decreasing_by
  have := preorder.parent_lt _named
  exact Prod.Lex.left _ _ this

/-- The column that a node has for its checked children. -/
def base (preorder : Tree.Preorder tree) (i : tree.Id) : Int :=
  if (tree.node i).kind = .sourceUnit then 0
  else if (tree.node i).kind.hasBraces then
    settled preorder (tree.anchorOf i) + checker.options.step
  else
    match _named : (tree.node i).parent with
    | none => checker.options.step
    | some p => settled preorder p + checker.options.step
termination_by (i.val, 3)
decreasing_by
  · have := preorder.anchorOf_le i
    rcases Nat.lt_or_eq_of_le this with earlier | same
    · exact Prod.Lex.left _ _ earlier
    · rw [same]
      exact Prod.Lex.right _ (by decide)
  · have := preorder.parent_lt _named
    exact Prod.Lex.left _ _ this

/-- The column a node belongs in. -/
def settled (preorder : Tree.Preorder tree) (i : tree.Id) : Int :=
  match nearest preorder (tree.node i).line i with
  | some (m, column) => (tree.node i).column - (tree.node m).column + column
  | none => (tree.node i).column
termination_by (i.val, 2)
decreasing_by
  exact Prod.Lex.right _ (by decide)

/-- The nearest of a node and its ancestors on a line that does not stand in the column
required of it, with that column. -/
def nearest (preorder : Tree.Preorder tree) (line : Int) (i : tree.Id) : Option (tree.Id × Int) :=
  match (required preorder i).filter (· ≠ (tree.node i).column) with
  | some column => some (i, column)
  | none =>
    match _named : (tree.node i).parent with
    | none => none
    | some p => if (tree.node p).line = line then nearest preorder line p else none
termination_by (i.val, 1)
decreasing_by
  · exact Prod.Lex.right _ (by decide)
  · have := preorder.parent_lt _named
    exact Prod.Lex.left _ _ this

end

/-- Whether a node checks statements, and neither members nor top-level nodes. -/
def checksBodies (tree : Tree) (i : tree.Id) : Bool :=
  (tree.node i).kind ≠ .sourceUnit && !(tree.node i).kind.hasBraces

theorem checksBodies_iff {i : tree.Id} :
    checksBodies tree i ↔ (tree.node i).kind ≠ .sourceUnit ∧ ¬ (tree.node i).kind.hasBraces := by
  simp [checksBodies]

theorem controls_of_checked {p c : tree.Id} (checks : checksBodies tree p) (member : c ∈ checker.checked tree p) :
    (tree.node p).kind.controls := by
  obtain ⟨other, bare⟩ := checksBodies_iff.1 checks
  rcases mem_checked.1 member with ⟨unit, _⟩ | ⟨braced, _⟩ | ⟨slot, _⟩
  · exact absurd unit other
  · exact absurd braced bare
  · exact controls_of_governed slot

section Equations

variable {checker} (preorder : Tree.Preorder tree) {i p : tree.Id} {line column : Int}

theorem base_sourceUnit (unit : (tree.node i).kind = .sourceUnit) : checker.base preorder i = 0 := by
  rw [base, if_pos unit]

theorem base_braces (braced : (tree.node i).kind.hasBraces) :
    checker.base preorder i = checker.settled preorder (tree.anchorOf i) + checker.options.step := by
  rw [base, if_neg (Kind.ne_sourceUnit_of_hasBraces braced), if_pos braced]

theorem base_parentless (checks : checksBodies tree i) (missing : (tree.node i).parent = none) :
    checker.base preorder i = checker.options.step := by
  obtain ⟨other, bare⟩ := checksBodies_iff.1 checks
  rw [base, if_neg other, if_neg bare]
  split
  next => rfl
  next q same => cases missing.symm.trans same

theorem base_bodies (checks : checksBodies tree i) (named : (tree.node i).parent = some p) :
    checker.base preorder i = checker.settled preorder p + checker.options.step := by
  obtain ⟨other, bare⟩ := checksBodies_iff.1 checks
  rw [base, if_neg other, if_neg bare]
  split
  next missing => cases named.symm.trans missing
  next q same =>
    obtain rfl : p = q := Option.some.inj (named.symm.trans same)
    rfl

theorem nearest_of_misplaced (found : checker.required preorder i = some column)
    (differs : column ≠ (tree.node i).column) : checker.nearest preorder line i = some (i, column) := by
  have here : (checker.required preorder i).filter (· ≠ (tree.node i).column) = some column := by
    rw [found]
    simp [Option.filter, differs]
  rw [nearest, here]

theorem nearest_of_unchecked (free : checker.required preorder i = none) (named : (tree.node i).parent = some p)
    (level : (tree.node p).line = line) : checker.nearest preorder line i = checker.nearest preorder line p := by
  rw [nearest, free]
  simp only [Option.filter_none]
  split
  next missing => cases named.symm.trans missing
  next q same =>
    obtain rfl : p = q := Option.some.inj (named.symm.trans same)
    exact if_pos level

end Equations

variable (preorder : Tree.Preorder tree) (i : tree.Id)

/-- The checked children that do not stand in the column for them. -/
def misplaced : List tree.Id :=
  (checker.checked tree i).filter fun c => (tree.node c).column ≠ checker.base preorder i

/-- The token that ends the node's body, if it does not stand where the anchor belongs. -/
def misplacedEnd : Option tree.Id :=
  if (tree.node i).kind.hasBraces then
    (tree.ending? i).filter fun last => (tree.node last).column ≠ checker.settled preorder (tree.anchorOf i)
  else none

def findingOf (tree : Tree) (column : Int) (i : tree.Id) : Finding :=
  ⟨(tree.node i).line, (tree.node i).column, .misplaced column⟩

def findingsAt : List Finding :=
  (checker.misplaced preorder i).map (findingOf tree (checker.base preorder i)) ++
    (checker.misplacedEnd preorder i).toList.map
      (findingOf tree (checker.settled preorder (tree.anchorOf i)))

/-- What is misplaced, in the order of the nodes whose children or ends are off. -/
def strays : List Finding := (List.finRange tree.size).flatMap (checker.findingsAt preorder)

def correctionOf (tree : Tree) (column : Int) (i : tree.Id) : Key × Correction :=
  (.whole i.val, ⟨(tree.node i).column, column⟩)

def correctionsAt : Corrections :=
  (checker.misplaced preorder i).map (correctionOf tree (checker.base preorder i))

def bodyLinesAt : List Int :=
  if checksBodies tree i then (checker.findingsAt preorder i).map (·.line) else []

def memberLinesAt : List Int :=
  if checksBodies tree i then [] else (checker.findingsAt preorder i).map (·.line)

end Check.Checker
end Indentation
