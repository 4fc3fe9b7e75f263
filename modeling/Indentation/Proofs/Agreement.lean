import Indentation.Proofs.Pass

/-! A check finds exactly what the recursion over required columns says, in the order of
the nodes' numbers: first the misplaced checked children of a node, then the end of its
body. It records exactly the corrections of the misplaced children, and when it leaves a
source unit it adds the uneven lines among those on which nothing is misplaced. -/

namespace Indentation.Check.Checker

variable (checker : Checker) {tree : Tree} (preorder : Tree.Preorder tree)

theorem mem_flaggedLines {s : State} {done : List tree.Id} (follows : checker.Follows preorder done s) (line : Int) :
    line ∈ s.flaggedLines ↔ ∃ finding ∈ done.flatMap (checker.findingsAt preorder), finding.line = line := by
  have bodies : s.bodyLines = done.flatMap (checker.bodyLinesAt preorder) := by simpa using follows.bodyLines
  have members : s.memberLines = done.flatMap (checker.memberLinesAt preorder) := by simpa using follows.memberLines
  have at_node : ∀ i, line ∈ checker.bodyLinesAt preorder i ∨ line ∈ checker.memberLinesAt preorder i ↔
      ∃ finding ∈ checker.findingsAt preorder i, finding.line = line := by
    intro i
    unfold bodyLinesAt memberLinesAt
    split <;> simp
  rw [State.flaggedLines, bodies, members, List.mem_append, List.mem_flatMap, List.mem_flatMap]
  constructor
  · rintro (⟨i, inside, flagged⟩ | ⟨i, inside, flagged⟩)
    · obtain ⟨finding, found, same⟩ := (at_node i).1 (.inl flagged)
      exact ⟨finding, List.mem_flatMap.2 ⟨i, inside, found⟩, same⟩
    · obtain ⟨finding, found, same⟩ := (at_node i).1 (.inr flagged)
      exact ⟨finding, List.mem_flatMap.2 ⟨i, inside, found⟩, same⟩
  · rintro ⟨finding, found, same⟩
    obtain ⟨i, inside, here⟩ := List.mem_flatMap.1 found
    rcases (at_node i).2 ⟨finding, here, same⟩ with flagged | flagged
    · exact .inl ⟨i, inside, flagged⟩
    · exact .inr ⟨i, inside, flagged⟩

/-- What a check leaves behind. -/
structure Outcome (s : State) : Prop where
  findings : ∃ uneven, s.findings = checker.strays preorder ++ uneven ∧
    checker.Uneven tree (checker.strays preorder) uneven
  corrections : s.corrections = (List.finRange tree.size).flatMap (checker.correctionsAt preorder)
  bodyLines : s.bodyLines = (List.finRange tree.size).flatMap (checker.bodyLinesAt preorder)
  memberLines : s.memberLines = (List.finRange tree.size).flatMap (checker.memberLinesAt preorder)

theorem outcome_of_check (apart : checker.profile.ifThen ≠ checker.profile.ifElse)
    (only : ∀ i : tree.Id, i ≠ tree.root → (tree.node i).kind ≠ .sourceUnit) :
    ∃ s, checker.check tree {} = .ok () s ∧ checker.Outcome preorder s := by
  obtain ⟨between, walk, others⟩ := tree.exists_walk_eq
  let visits : List tree.Visit := ⟨.enter, tree.root⟩ :: between
  have split : tree.walk = visits ++ [⟨.exit, tree.root⟩] := walk
  have start : checker.Follows preorder [] (({} : State).note (.began tree.size)) := ⟨rfl, rfl, rfl, rfl⟩
  have order : List.finRange tree.size = [] ++ visits.filterMap Tree.Visit.entered? ++ [] := by
    rw [← preorder.entered, split]
    simp [Tree.Visit.entered?]
  have exits : ∀ visit ∈ visits, visit.phase = .exit → (tree.node visit.node).kind ≠ .sourceUnit := by
    intro visit member leaves
    rcases List.mem_cons.1 member with rfl | inside
    · cases leaves
    · exact only _ (others visit inside)
  have follows := Follows.visits checker preorder apart visits start order exits
  rw [List.append_nil] at order
  rw [← order] at follows
  refine ⟨_, checker.check_eq tree {}, ?_⟩
  rw [split, List.foldl_append, List.foldl_cons, List.foldl_nil]
  generalize visits.foldl (checker.after tree) (({} : State).note (.began tree.size)) = s at follows ⊢
  have last := Adds.trans follows (checker.leave_adds tree s)
  refine ⟨⟨_, last.findings, ?_⟩, by simpa using last.corrections, by simpa using last.bodyLines,
    by simpa using last.memberLines⟩
  split
  next unit => exact uneven_unevenOutside unit (checker.mem_flaggedLines preorder follows)
  next other => exact uneven_nil other

variable {checker} in
theorem outcome_of_checked (apart : checker.profile.ifThen ≠ checker.profile.ifElse)
    (only : ∀ i : tree.Id, i ≠ tree.root → (tree.node i).kind ≠ .sourceUnit) {s : State}
    (checked : checker.check tree {} = .ok () s) : checker.Outcome preorder s := by
  obtain ⟨_, again, outcome⟩ := checker.outcome_of_check preorder apart only
  cases again.symm.trans checked
  exact outcome

theorem Outcome.correction {s : State} (outcome : checker.Outcome preorder s) (i : tree.Id) :
    Corrections.of? s.corrections i.val =
      ((checker.required preorder i).filter (· ≠ (tree.node i).column)).map (⟨(tree.node i).column, ·⟩) := by
  rw [outcome.corrections, of?_recorded]
  split
  · rfl
  next missing =>
    cases named : (tree.node i).parent with
    | none => exact (checker.correction?_of_parentless preorder named).symm
    | some p => exact absurd ⟨p, List.mem_finRange p, named⟩ missing

theorem only_root_of_labels {root : Outline} {hidden : List Token} {tree : Tree}
    (flattened : root.toTree hidden = .ok tree) (only : ∀ label ∈ root.labels.tail, label.kind ≠ .sourceUnit)
    (i : tree.Id) (other : i ≠ tree.root) : (tree.node i).kind ≠ .sourceUnit := by
  obtain ⟨label, found, fits⟩ := Tree.fits_toTree flattened i
  have later : i.val ≠ 0 := fun first => other (Fin.ext first)
  rw [fits.kind]
  apply only
  cases number : i.val with
  | zero => exact absurd number later
  | succ k =>
    rw [number] at found
    exact List.mem_of_getElem? (by rw [List.getElem?_tail]; exact found)

/-- An outline whose only source unit is its root is flattened, the tree is checked, and what
the check leaves behind is what the recursion says. -/
theorem check_agrees_with_required (root : Outline) (hidden : List Token) (options : Options) (profile : Profile)
    (only : ∀ label ∈ root.labels.tail, label.kind ≠ .sourceUnit) (apart : profile.ifThen ≠ profile.ifElse) :
    ∃ (tree : Tree) (preorder : Tree.Preorder tree) (s : State),
      root.toTree hidden = .ok tree ∧
      (Checker.mk options profile).check tree {} = .ok () s ∧
      (Checker.mk options profile).Outcome preorder s ∧
      ∀ i : tree.Id, Corrections.of? s.corrections i.val =
        (((Checker.mk options profile).required preorder i).filter (· ≠ (tree.node i).column)).map
          (⟨(tree.node i).column, ·⟩) := by
  obtain ⟨tree, flattened⟩ := Tree.exists_toTree root hidden
  have preorder := Tree.preorder_toTree flattened
  obtain ⟨s, checked, outcome⟩ := (Checker.mk options profile).outcome_of_check preorder apart
    (only_root_of_labels flattened only)
  exact ⟨tree, preorder, s, flattened, checked, outcome, outcome.correction⟩

/-- A block two columns too far to the right, with a member that is one column off where
the block belongs. -/
def slanted : Outline :=
  .node ⟨.sourceUnit, none, 1, 2, 3, 0, 0⟩
    [.node ⟨.block, none, 1, 2, 3, 0, 0⟩
      [.node ⟨.terminal, some "\x7b", 1, 2, 1, 0, 0⟩ [],
        .node ⟨.statement, none, 2, 5, 2, 0, 0⟩ [.node ⟨.terminal, some "x", 2, 5, 2, 0, 0⟩ []],
        .node ⟨.terminal, some "\x7d", 3, 0, 3, 0, 0⟩ []]]

def slantedTree : Tree := (slanted.toTree []).toOption.get (by decide +kernel)

/-- The block is sent back to column zero, the member to where a step inside the block would
then be, and the closing brace stands right. -/
theorem check_agrees_with_required_slanted :
    (∀ label ∈ slanted.labels.tail, label.kind ≠ .sourceUnit) ∧ slanted.toTree [] = .ok slantedTree ∧
    ∃ (preorder : Tree.Preorder slantedTree) (s : State),
      (Checker.mk .fallback {}).check slantedTree {} = .ok () s ∧
      (Checker.mk .fallback {}).Outcome preorder s ∧
      s.findings = [⟨1, 2, .misplaced 0⟩, ⟨2, 5, .misplaced 4⟩] ∧
      (Checker.mk .fallback {}).required preorder ⟨1, by decide +kernel⟩ = some 0 ∧
      (Checker.mk .fallback {}).required preorder ⟨3, by decide +kernel⟩ = some 4 := by
  have only : ∀ label ∈ slanted.labels.tail, label.kind ≠ .sourceUnit := by decide
  obtain ⟨tree, preorder, s, flattened, checked, outcome, corrected⟩ :=
    check_agrees_with_required slanted [] .fallback {} only (by decide)
  obtain rfl : slantedTree = tree := by simp [slantedTree, flattened, Except.toOption]
  obtain ⟨next, again, adds⟩ := (Checker.mk .fallback {}).check_midway slantedTree
  cases again.symm.trans checked
  have passed : (Checker.mk .fallback {}).midway slantedTree slantedTree.walk.dropLast =
      { corrections := [(.whole 1, ⟨2, 0⟩), (.whole 3, ⟨5, 4⟩)], memberLines := [1, 2],
        findings := [⟨1, 2, .misplaced 0⟩, ⟨2, 5, .misplaced 4⟩],
        notes := [.began 6, .found ⟨1, 2, .misplaced 0⟩, .found ⟨2, 5, .misplaced 4⟩] } := by decide +kernel
  have even : (Checker.mk .fallback {}).unevenOutside slantedTree [1, 2] = [] := by
    apply unevenOutside_eq_nil
    intro t member
    have tokens : ∀ t ∈ slanted.tokens, t.line ∉ [1, 2] → (4 : Int) ∣ t.column := by decide
    exact tokens t (by simpa using (Tree.tokens_toTree flattened).mem_iff.1 member)
  rw [passed] at adds
  have required : ∀ (i : slantedTree.Id) (correction : Correction),
      Corrections.of? s.corrections i.val = some correction →
        (Checker.mk .fallback {}).required preorder i = some correction.expected := by
    intro i correction found
    obtain ⟨column, kept, rfl⟩ := Option.map_eq_some_iff.1 ((corrected i).symm.trans found)
    exact (Option.filter_eq_some_iff.1 kept).1
  refine ⟨only, flattened, preorder, s, checked, outcome, ?_, required ⟨1, _⟩ ⟨2, 0⟩ ?_, required ⟨3, _⟩ ⟨5, 4⟩ ?_⟩
  · rw [adds.findings]
    simp [State.flaggedLines, even]
  · rw [adds.corrections]
    rfl
  · rw [adds.corrections]
    rfl

end Indentation.Check.Checker
