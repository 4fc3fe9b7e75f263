import Indentation.Proofs.Accounting
import Indentation.Proofs.Ascent
import Indentation.Proofs.Distinctness
import Indentation.Proofs.Stretching

/-! Nothing is required to stand left of the margin. The column a node belongs in is its own,
moved as far as the first corrected node above it on the line is to move. That node does not
start to the right of it, so it is moved at most to where that one belongs, and a column that a
correction requires is itself one in which something belongs, or one step further in. -/

namespace Indentation

namespace Tree

/-- No node starts left of the margin, or left of a parent on its line. -/
structure Indented (tree : Tree) : Prop where
  column_nonneg : ∀ i : tree.Id, 0 ≤ (tree.node i).column
  parent_le : ∀ {i p : tree.Id}, (tree.node i).parent = some p → (tree.node p).line = (tree.node i).line →
    (tree.node p).column ≤ (tree.node i).column

/-- Corrections of nodes from where they stand to columns on the page. -/
def Reachable (tree : Tree) (table : Corrections) : Prop :=
  ∀ (i : tree.Id) (correction : Correction), Corrections.of? table i.val = some correction →
    correction.observed = (tree.node i).column ∧ 0 ≤ correction.expected

variable {tree : Tree}

/-- What stands above a node on its line does not start to the right of it. -/
theorem Indented.column_le (indented : tree.Indented) {line : Int} {count : Nat} {i j : tree.Id}
    (starts : (tree.node i).line = line) (up : risen (tree.parentOn? line) count i = some j) :
    (tree.node j).column ≤ (tree.node i).column := by
  induction count generalizing i with
  | zero =>
    cases up
    exact Int.le_refl _
  | succ count ih =>
    obtain ⟨p, step, above⟩ := Option.bind_eq_some_iff.1 up
    obtain ⟨named, level⟩ := Option.filter_eq_some_iff.1 step
    have level : (tree.node p).line = line := of_decide_eq_true level
    exact Int.le_trans (ih level above) (indented.parent_le named (level.trans starts.symm))

/-- The column a node belongs in is on the page. -/
theorem Indented.indentOf_nonneg (indented : tree.Indented) {table : Corrections} (reachable : tree.Reachable table)
    (i : tree.Id) : 0 ≤ tree.indentOf table i := by
  have belongs := belongs_indentOf tree table i
  generalize tree.indentOf table i = column at belongs
  cases belongs with
  | corrected first =>
    obtain ⟨⟨j, up, found⟩, _⟩ := first
    obtain ⟨observed, nonneg⟩ := reachable j _ found
    have upto := indented.column_le rfl up
    omega
  | uncorrected => exact indented.column_nonneg i

end Tree

/-- Asks for no column left of the margin. -/
inductive Finding.Cause.Possible : Finding.Cause → Prop where
  | misplaced {required : Int} (nonneg : 0 ≤ required) : Possible (.misplaced required)
  | uneven : Possible .uneven

namespace Check

/-- Nothing has been required left of the margin. -/
structure OnPage (tree : Tree) (s : State) : Prop where
  reachable : tree.Reachable s.corrections
  corrections : ∀ entry ∈ s.corrections, 0 ≤ entry.2.expected
  findings : ∀ finding ∈ s.findings, finding.cause.Possible

namespace OnPage

variable {tree : Tree} {s : State}

theorem start (tree : Tree) (nodes : Nat) : OnPage tree (State.note {} (.began nodes)) := ⟨nofun, nofun, nofun⟩

theorem report (page : OnPage tree s) {next : State} {finding : Finding}
    (corrections : next.corrections = s.corrections) (findings : next.findings = s.findings ++ [finding])
    (possible : finding.cause.Possible) : OnPage tree next := by
  refine ⟨corrections ▸ page.reachable, corrections ▸ page.corrections, ?_⟩
  rw [findings]
  intro other member
  rcases List.mem_append.1 member with old | new
  · exact page.findings other old
  · rw [List.mem_singleton.1 new]
    exact possible

theorem correct (page : OnPage tree s) (i : tree.Id) {required : Int} (nonneg : 0 ≤ required) :
    OnPage tree (s.correct (.whole i.val) ⟨(tree.node i).column, required⟩) := by
  refine ⟨?_, ?_, page.findings⟩
  · intro j correction found
    rw [State.correct, of?_record] at found
    rcases Option.or_eq_some_iff.1 found with old | ⟨_, new⟩
    · exact page.reachable j correction old
    · split at new
      next same =>
        obtain rfl : i = j := Fin.ext (Int.ofNat.inj same)
        cases new
        exact ⟨rfl, nonneg⟩
      next => cases new
  · obtain ⟨more, recorded, same⟩ := exists_record s.corrections (.whole i.val) ⟨(tree.node i).column, required⟩
    intro entry member
    rw [State.correct, recorded] at member
    rcases List.mem_append.1 member with old | new
    · exact page.corrections entry old
    · rw [same entry new]
      exact nonneg

end OnPage

namespace Checker

variable {checker : Checker} {tree : Tree} {s : State}

theorem requireMember_onPage {required : Int} (nonneg : 0 ≤ required) (page : OnPage tree s) (i : tree.Id) :
    OnPage tree (requireMember tree required s i) := by
  unfold requireMember
  dsimp only
  split
  next => exact page
  next =>
    apply OnPage.correct _ i nonneg
    exact page.report rfl rfl (.misplaced nonneg)

theorem requireMembers_onPage {required : Int} (nonneg : 0 ≤ required) (page : OnPage tree s) (ids : List tree.Id) :
    OnPage tree (ids.foldl (requireMember tree required) s) := by
  induction ids generalizing s with
  | nil => exact page
  | cons i rest ih => exact ih (requireMember_onPage nonneg page i)

theorem checkEnd_onPage (indented : tree.Indented) (page : OnPage tree s) (anchor last : tree.Id) :
    OnPage tree (checkEnd tree anchor last s) := by
  unfold checkEnd
  dsimp only
  split
  next => exact page
  next => exact page.report rfl rfl (.misplaced (indented.indentOf_nonneg page.reachable anchor))

theorem checkMembers_onPage (indented : tree.Indented) (page : OnPage tree s) (anchor i : tree.Id) :
    OnPage tree (checker.checkMembers tree anchor i s) := by
  have base := indented.indentOf_nonneg page.reachable anchor
  have step := checker.options.step_pos
  exact requireMembers_onPage (by omega) page _

theorem requiredBody_nonneg (indented : tree.Indented) (page : OnPage tree s) (i : tree.Id) :
    0 ≤ checker.requiredBody tree s i := by
  have step := checker.options.step_pos
  unfold requiredBody
  dsimp only
  cases (tree.node i).parent with
  | none => dsimp only; omega
  | some parent =>
    have base := indented.indentOf_nonneg page.reachable parent
    dsimp only
    omega

theorem checkBody_onPage (indented : tree.Indented) (page : OnPage tree s) (i : tree.Id) (position : Int) :
    OnPage tree (checker.checkBody tree i s position) := by
  unfold checkBody
  split
  next => exact page
  next body _ =>
    dsimp only
    split
    next => exact page
    next =>
      split
      next => exact page
      next =>
        have nonneg : 0 ≤ checker.requiredBody tree s i := requiredBody_nonneg indented page i
        apply OnPage.correct _ body nonneg
        exact page.report rfl rfl (.misplaced nonneg)

theorem checkBodies_onPage (indented : tree.Indented) (page : OnPage tree s) (i : tree.Id) (positions : List Int) :
    OnPage tree (checker.checkBodies tree i positions s) := by
  unfold checkBodies
  induction positions generalizing s with
  | nil => exact page
  | cons position rest ih => exact ih (checkBody_onPage indented page i position)

theorem checkMultiples_onPage (page : OnPage tree s) (skipped : List Int) :
    OnPage tree (checker.checkMultiples tree skipped s) := by
  have adds := checker.checkMultiples_adds tree skipped s
  have kept : (checker.checkMultiples tree skipped s).corrections = s.corrections := by
    rw [adds.corrections, List.append_nil]
  refine ⟨kept ▸ page.reachable, kept ▸ page.corrections, ?_⟩
  rw [adds.findings]
  intro finding member
  rcases List.mem_append.1 member with old | new
  · exact page.findings finding old
  · rw [(mem_unevenOutside.1 new).2.2.1]
    exact .uneven

theorem checkBraces_onPage (indented : tree.Indented) (page : OnPage tree s) (i : tree.Id) :
    OnPage tree ((checker.checkBraces tree i).ends s) := by
  unfold checkBraces
  split
  next => exact page
  next first last _ =>
    split
    next => exact page
    next =>
      split
      next => exact page
      next anchor _ => exact checkEnd_onPage indented (checkMembers_onPage indented page anchor i) anchor last

theorem apply_onPage (indented : tree.Indented) (page : OnPage tree s) (rule : Rule) (i : tree.Id) :
    OnPage tree ((rule.apply checker tree i).ends s) := by
  cases rule with
  | braces => exact checkBraces_onPage indented page i
  | ifBodies => exact checkBodies_onPage indented page i _
  | whileBody => exact checkBodies_onPage indented page i _
  | doWhileBody => exact checkBodies_onPage indented page i _
  | forBody => exact checkBodies_onPage indented page i _
  | topLevel => exact requireMembers_onPage (Int.le_refl 0) page _
  | multiples => exact checkMultiples_onPage page _

theorem after_onPage (indented : tree.Indented) (page : OnPage tree s) (visit : tree.Visit) :
    OnPage tree (checker.after tree s visit) := by
  rw [after_eq_ends]
  unfold Checker.visit
  split
  next rule _ => exact apply_onPage indented page rule visit.node
  next => exact page

/-- A whole check stays on the page. -/
theorem check_onPage (checker : Checker) (indented : tree.Indented) :
    ∃ s, checker.check tree {} = .ok () s ∧ OnPage tree s := by
  refine ⟨_, checker.check_eq tree {}, ?_⟩
  refine List.foldlRecOn tree.walk (checker.after tree) (OnPage.start tree tree.size) ?_
  intro s page visit _
  exact after_onPage indented page visit

end Checker
end Check

theorem Tree.indented_of_faithful {root : Outline} {hidden : List Token} {tree : Tree} (faithful : root.Faithful)
    (page : ∀ leaf ∈ root.leaves, 0 ≤ leaf.column) (flattened : root.toTree hidden = .ok tree) : tree.Indented := by
  constructor
  · intro i
    obtain ⟨label, found, fits⟩ := fits_toTree flattened i
    obtain ⟨leaf, member, _, column⟩ := faithful.derived.exists_leaf (List.mem_of_getElem? found)
    rw [fits.column, ← column]
    exact page leaf member
  · intro i p named level
    have before := (preorder_toTree flattened).parent_lt named
    obtain ⟨a, b, fits, suits, precedes⟩ := precedes_of_lt faithful flattened before
    unfold Outline.Label.Precedes Outline.Label.Before at precedes
    rw [← fits.line, ← fits.column, ← suits.line, ← suits.column] at precedes
    omega

namespace Check.Checker

/-- What a check asks for can be done: every column that a finding requires, and every column
that a correction leads to, is on the page if all the leaves are. -/
theorem check_demands_possible {root : Outline} {hidden : List Token} (faithful : root.Faithful)
    (page : ∀ leaf ∈ root.leaves, 0 ≤ leaf.column) (options : Options) (profile : Profile) :
    ∃ (tree : Tree) (s : State), root.toTree hidden = .ok tree ∧
      (Checker.mk options profile).check tree {} = .ok () s ∧
      (∀ d ∈ s.diagnostics options, d.isExpectation = true → ∃ required : Nat, d.message =
        "Expected indentation of " ++ toString required ++ " " ++ options.unit.name ++ " but found " ++
          toString d.column) ∧
      ∀ entry ∈ s.corrections, 0 ≤ entry.2.expected := by
  obtain ⟨tree, flattened⟩ := Tree.exists_toTree root hidden
  obtain ⟨s, checked, onPage⟩ := check_onPage ⟨options, profile⟩ (Tree.indented_of_faithful faithful page flattened)
  refine ⟨tree, s, flattened, checked, ?_, onPage.corrections⟩
  intro d member expects
  obtain ⟨⟨line, column, cause⟩, found, rfl⟩ := List.mem_map.1 member
  rw [Finding.isExpectation_diagnostic] at expects
  cases onPage.findings _ found with
  | misplaced nonneg =>
    obtain ⟨required, rfl⟩ := Int.eq_ofNat_of_zero_le nonneg
    exact ⟨required, rfl⟩
  | uneven => cases expects

theorem check_demands_possible_slanted :
    slanted.Faithful ∧ (∀ leaf ∈ slanted.leaves, 0 ≤ leaf.column) ∧
      ∃ (tree : Tree) (s : State), slanted.toTree [] = .ok tree ∧
        (Checker.mk .fallback {}).check tree {} = .ok () s ∧
        (∀ d ∈ s.diagnostics .fallback, d.isExpectation = true → ∃ required : Nat, d.message =
          "Expected indentation of " ++ toString required ++ " " ++ Options.fallback.unit.name ++ " but found " ++
            toString d.column) ∧
        ∀ entry ∈ s.corrections, 0 ≤ entry.2.expected := by
  have page : ∀ leaf ∈ slanted.leaves, 0 ≤ leaf.column := by decide
  exact ⟨faithful_slanted, page, check_demands_possible faithful_slanted page .fallback {}⟩

end Check.Checker
end Indentation
