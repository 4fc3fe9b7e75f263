import Indentation.Proofs.Agreement

/-! When a check finds nothing. As long as everything stands in the column required of it,
every node belongs where it stands, and the required columns can be read off the tree as it
is. So a check finds nothing exactly when the checked children of every node, and the ends
of all bodies, stand where the columns of the tree itself put them and no line starts
between two steps. -/

namespace Indentation.Check.Checker

variable (checker : Checker) {tree : Tree} {preorder : Tree.Preorder tree}

/-- The column for the checked children of a node, measured from where things stand. -/
def plainBase (tree : Tree) (i : tree.Id) : Int :=
  if (tree.node i).kind = .sourceUnit then 0
  else if (tree.node i).kind.hasBraces then (tree.node (tree.anchorOf i)).column + checker.options.step
  else
    match (tree.node i).parent with
    | none => checker.options.step
    | some p => (tree.node p).column + checker.options.step

structure Quiet (tree : Tree) : Prop where
  members : ∀ {p c : tree.Id}, c ∈ checker.checked tree p → (tree.node c).column = checker.plainBase tree p
  ends : ∀ {p last : tree.Id}, (tree.node p).kind.hasBraces → tree.ending? p = some last →
    (tree.node last).column = (tree.node (tree.anchorOf p)).column
  lines : (tree.node tree.root).kind = .sourceUnit → ∀ line column, StartsAt tree line column →
    checker.options.step ∣ column

variable {checker}

section Equations

variable {i p : tree.Id}

theorem plainBase_sourceUnit (unit : (tree.node i).kind = .sourceUnit) : checker.plainBase tree i = 0 := by
  rw [plainBase, if_pos unit]

theorem plainBase_braces (braced : (tree.node i).kind.hasBraces) :
    checker.plainBase tree i = (tree.node (tree.anchorOf i)).column + checker.options.step := by
  rw [plainBase, if_neg (Kind.ne_sourceUnit_of_hasBraces braced), if_pos braced]

theorem plainBase_parentless (checks : checksBodies tree i) (missing : (tree.node i).parent = none) :
    checker.plainBase tree i = checker.options.step := by
  obtain ⟨other, bare⟩ := checksBodies_iff.1 checks
  rw [plainBase, if_neg other, if_neg bare, missing]

theorem plainBase_bodies (checks : checksBodies tree i) (named : (tree.node i).parent = some p) :
    checker.plainBase tree i = (tree.node p).column + checker.options.step := by
  obtain ⟨other, bare⟩ := checksBodies_iff.1 checks
  rw [plainBase, if_neg other, if_neg bare, named]

end Equations

theorem required_of_checked {p c : tree.Id} (member : c ∈ checker.checked tree p) :
    checker.required preorder c = some (checker.base preorder p) := by
  have named := tree.linked (mem_children_of_checked checker member)
  rw [required]
  split
  next missing => cases named.symm.trans missing
  next q found =>
    obtain rfl : p = q := Option.some.inj (named.symm.trans found)
    rw [if_pos member]

theorem checked_of_required {c : tree.Id} {column : Int} (found : checker.required preorder c = some column) :
    ∃ p, (tree.node c).parent = some p ∧ c ∈ checker.checked tree p ∧ column = checker.base preorder p := by
  rw [required] at found
  split at found
  next => cases found
  next p named =>
    split at found
    next member => exact ⟨p, named, member, (Option.some.inj found).symm⟩
    next => cases found

theorem nearest_of_placed {line : Int} {i : tree.Id} (starts : (tree.node i).line = line)
    (placed : ∀ j : tree.Id, j ≤ i → (tree.node j).line = line →
      ∀ column, checker.required preorder j = some column → column = (tree.node j).column) :
    checker.nearest preorder line i = none := by
  induction number : i.val using Nat.strongRecOn generalizing i with
  | ind number ih =>
    have here : (checker.required preorder i).filter (· ≠ (tree.node i).column) = none := by
      rw [Option.filter_eq_none_iff]
      intro column found
      simpa using placed i (Fin.le_refl i) starts column found
    rw [nearest, here]
    dsimp only
    split
    next => rfl
    next p named =>
      split
      next same =>
        have earlier : p.val < i.val := preorder.parent_lt named
        refine ih p.val (by omega) same ?_ rfl
        intro j before
        exact placed j (Fin.le_trans before (Fin.le_of_lt earlier))
      next => rfl

theorem settled_of_placed {i : tree.Id}
    (placed : ∀ j : tree.Id, j ≤ i → (tree.node j).line = (tree.node i).line →
      ∀ column, checker.required preorder j = some column → column = (tree.node j).column) :
    checker.settled preorder i = (tree.node i).column := by
  rw [settled, nearest_of_placed rfl placed]

private theorem base_of_placed {i : tree.Id}
    (placed : ∀ j : tree.Id, j ≤ i →
      ∀ column, checker.required preorder j = some column → column = (tree.node j).column) :
    checker.base preorder i = checker.plainBase tree i := by
  rw [base, plainBase]
  split
  · rfl
  · split
    · rw [settled_of_placed fun j before _ => placed j (Fin.le_trans before (preorder.anchorOf_le i))]
    · split
      next missing => rw [missing]
      next p named =>
        have earlier : p.val < i.val := preorder.parent_lt named
        rw [named, settled_of_placed fun j before _ => placed j (Fin.le_trans before (Fin.le_of_lt earlier))]

theorem Quiet.placed (quiet : checker.Quiet tree) (i : tree.Id) (column : Int)
    (found : checker.required preorder i = some column) : column = (tree.node i).column := by
  induction number : i.val using Nat.strongRecOn generalizing i column with
  | ind number ih =>
    obtain ⟨p, named, member, rfl⟩ := checked_of_required found
    have earlier : p.val < i.val := preorder.parent_lt named
    rw [quiet.members member]
    apply base_of_placed
    intro j before column found
    have before : j.val ≤ p.val := before
    exact ih j.val (by omega) j column found rfl

theorem Quiet.settled (quiet : checker.Quiet tree) (i : tree.Id) :
    checker.settled preorder i = (tree.node i).column :=
  settled_of_placed fun j _ _ => quiet.placed j

theorem Quiet.base (quiet : checker.Quiet tree) (i : tree.Id) :
    checker.base preorder i = checker.plainBase tree i :=
  base_of_placed fun j _ => quiet.placed j

theorem Quiet.misplaced (quiet : checker.Quiet tree) (i : tree.Id) : checker.misplaced preorder i = [] := by
  rw [Checker.misplaced, List.filter_eq_nil_iff]
  intro c member
  simp [quiet.base, quiet.members member]

theorem Quiet.findingsAt (quiet : checker.Quiet tree) (i : tree.Id) : checker.findingsAt preorder i = [] := by
  have ending : checker.misplacedEnd preorder i = none := by
    rw [misplacedEnd]
    split
    next braced =>
      rw [Option.filter_eq_none_iff]
      intro last found
      simp [quiet.settled, quiet.ends braced found]
    next => rfl
  rw [Checker.findingsAt, quiet.misplaced, ending]
  rfl

/-- A check finds nothing exactly in quiet trees. -/
theorem Outcome.findings_eq_nil_iff {s : State} (outcome : checker.Outcome preorder s) :
    s.findings = [] ↔ checker.Quiet tree := by
  obtain ⟨uneven, findings, exactly⟩ := outcome.findings
  rw [findings, List.append_eq_nil_iff, strays, List.flatMap_eq_nil_iff]
  constructor
  · rintro ⟨found, rfl⟩
    have none_at : ∀ i, checker.misplaced preorder i = [] ∧ checker.misplacedEnd preorder i = none := by
      intro i
      have nothing := found i (List.mem_finRange i)
      rw [findingsAt, List.append_eq_nil_iff, List.map_eq_nil_iff, List.map_eq_nil_iff, Option.toList_eq_nil_iff]
        at nothing
      exact nothing
    have stands : ∀ {p c}, c ∈ checker.checked tree p → (tree.node c).column = checker.base preorder p := by
      intro p c member
      have nothing := List.filter_eq_nil_iff.1 (none_at p).1 c member
      simpa using nothing
    have placed : ∀ j column, checker.required preorder j = some column → column = (tree.node j).column := by
      intro j column required
      obtain ⟨p, _, member, rfl⟩ := checked_of_required required
      exact (stands member).symm
    refine ⟨?_, ?_, ?_⟩
    · intro p c member
      rw [stands member, base_of_placed fun j _ => placed j]
    · intro p last braced ending
      have nothing := (none_at p).2
      rw [misplacedEnd, if_pos braced, ending, settled_of_placed fun j _ _ => placed j] at nothing
      simpa [Option.filter] using nothing
    · intro unit line column starts
      by_contra odd
      have nothing : checker.strays preorder = [] := List.flatMap_eq_nil_iff.2 found
      exact List.not_mem_nil ((exactly.lines ⟨line, column, .uneven⟩).2 ⟨unit, starts, odd, rfl, by simp [nothing]⟩)
  · intro quiet
    refine ⟨fun i _ => quiet.findingsAt i, List.eq_nil_iff_forall_not_mem.2 fun finding member => ?_⟩
    obtain ⟨unit, starts, odd, _⟩ := (exactly.lines finding).1 member
    exact odd (quiet.lines unit _ _ starts)

theorem Outcome.corrections_of_quiet {s : State} (outcome : checker.Outcome preorder s) (quiet : checker.Quiet tree) :
    s.corrections = [] := by
  rw [outcome.corrections, List.flatMap_eq_nil_iff]
  intro i _
  rw [correctionsAt, quiet.misplaced]
  rfl

end Indentation.Check.Checker
