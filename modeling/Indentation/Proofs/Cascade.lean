import Indentation.Proofs.Shift
import Indentation.Proofs.Silence

/-! One line out of place in a tree that was quiet. What is measured from that line is
measured through a checked node that was moved with it, and the correction of that node puts
everything back where it was. So the required columns stay as they were, and what is found
are the measured nodes of the moved line, each away from its old column. -/

namespace Indentation.Check.Checker

variable {checker : Checker} {tree : Tree} (preorder : Tree.Preorder tree) {line offset : Int} {tokens : List Token}
  (anew : Tree.Preorder (tree.relaid id (moved line offset) tokens))

/-- A node with a checked one at or above it on its line. -/
def Carried (checker : Checker) (tree : Tree) (i : tree.Id) : Prop :=
  ∃ top, Tree.Climbs tree i top ∧ ∃ p, top ∈ checker.checked tree p

/-- Whatever is measured from the line is measured through a checked node. -/
structure Steady (checker : Checker) (tree : Tree) (line : Int) : Prop where
  anchors : ∀ {p : tree.Id}, (tree.node p).kind.hasBraces → (tree.node (tree.anchorOf p)).line = line →
    checker.Carried tree (tree.anchorOf p)
  parents : ∀ {p q c : tree.Id}, checksBodies tree p → c ∈ checker.checked tree p → (tree.node p).parent = some q →
    (tree.node q).line = line → checker.Carried tree q

private theorem nearest_of_climbs (quiet : checker.Quiet tree) (away : offset ≠ 0) {i top p : tree.Id}
    (climbs : Tree.Climbs tree i top) (member : top ∈ checker.checked tree p) (starts : (tree.node i).line = line)
    (known : ∀ j : tree.Id, j ≤ i → checker.required anew j = checker.required preorder j) :
    ∃ k : tree.Id, checker.nearest anew line i = some (k, (tree.node k).column) ∧ (tree.node k).line = line := by
  have first : ∀ {i : tree.Id} {column : Int}, (tree.node i).line = line → checker.required preorder i = some column →
      checker.required anew i = checker.required preorder i →
      checker.nearest anew line i = some (i, (tree.node i).column) := by
    intro i column starts found same
    obtain rfl := quiet.placed i column found
    apply nearest_of_misplaced anew (same.trans found)
    simp only [Node.relaid, moved, starts, ↓reduceIte]
    omega
  induction climbs with
  | @here i =>
    exact ⟨i, first starts (required_of_checked member) (known i (Fin.le_refl i)), starts⟩
  | @up i q top step _ ih =>
    obtain ⟨named, level, _⟩ := Tree.lineParent?_eq_some.1 step
    have above := level.symm.trans starts
    cases found : checker.required preorder i with
    | some column => exact ⟨i, first starts found (known i (Fin.le_refl i)), starts⟩
    | none =>
      rw [nearest_of_unchecked anew ((known i (Fin.le_refl i)).trans found) named above]
      refine ih member above ?_
      intro j before
      exact known j (Fin.le_trans before (Fin.le_of_lt (preorder.parent_lt named)))

/-- A node that is carried along belongs in its old column, and so does one of another line. -/
theorem settled_shifted (quiet : checker.Quiet tree) (away : offset ≠ 0) {i : tree.Id}
    (carried : (tree.node i).line = line → checker.Carried tree i)
    (known : ∀ j : tree.Id, j ≤ i → checker.required anew j = checker.required preorder j) :
    checker.settled anew i = (tree.node i).column := by
  by_cases starts : (tree.node i).line = line
  · obtain ⟨top, climbs, p, member⟩ := carried starts
    obtain ⟨k, found, level⟩ := nearest_of_climbs preorder anew quiet away climbs member starts known
    have same : checker.nearest anew ((tree.relaid id (moved line offset) tokens).node i).line i =
        some (k, (tree.node k).column) := by
      rw [← found]
      exact congrArg (checker.nearest anew · i) starts
    rw [settled, same]
    simp only [Node.relaid, moved, starts, level, ↓reduceIte]
    omega
  · have stays : ∀ j : tree.Id, (tree.node j).line = (tree.node i).line →
        moved line offset (tree.node j).line (tree.node j).column = (tree.node j).column := by
      intro j level
      exact if_neg fun same => starts (level.symm.trans same)
    rw [settled_of_placed]
    · exact stays i rfl
    · intro j before level column found
      rw [known j before] at found
      exact (quiet.placed j column found).trans (stays j level).symm

private theorem base_of_known (quiet : checker.Quiet tree) (away : offset ≠ 0) (steady : checker.Steady tree line)
    {p c : tree.Id} (member : c ∈ checker.checked tree p)
    (known : ∀ j : tree.Id, j ≤ p → checker.required anew j = checker.required preorder j) :
    checker.base anew p = (tree.node c).column := by
  rw [quiet.members member]
  by_cases unit : (tree.node p).kind = .sourceUnit
  · rw [base_sourceUnit anew unit, plainBase_sourceUnit unit]
  by_cases braced : (tree.node p).kind.hasBraces
  · rw [base_braces anew braced, plainBase_braces braced, Tree.anchorOf_relaid Function.injective_id,
      settled_shifted preorder anew quiet away (steady.anchors braced)]
    exact fun j before => known j (Fin.le_trans before (preorder.anchorOf_le p))
  have checks := checksBodies_iff.2 ⟨unit, braced⟩
  cases named : (tree.node p).parent with
  | none =>
    rw [base_parentless anew checks named, plainBase_parentless checks named]
  | some q =>
    rw [base_bodies anew checks named, plainBase_bodies checks named,
      settled_shifted preorder anew quiet away (steady.parents checks member named)]
    exact fun j before => known j (Fin.le_trans before (Fin.le_of_lt (preorder.parent_lt named)))

theorem required_shifted (quiet : checker.Quiet tree) (away : offset ≠ 0) (steady : checker.Steady tree line)
    (i : tree.Id) : checker.required anew i = checker.required preorder i := by
  induction number : i.val using Nat.strongRecOn generalizing i with
  | ind number ih =>
    have same : ∀ p : tree.Id, (tree.node i).parent = some p → i ∈ checker.checked tree p →
        checker.base anew p = (tree.node i).column := by
      intro p named member
      refine base_of_known preorder anew quiet away steady member ?_
      intro j before
      have before : j.val ≤ p.val := before
      have earlier : p.val < i.val := preorder.parent_lt named
      exact ih j.val (by omega) j rfl
    apply Option.ext
    intro column
    constructor
    · intro found
      obtain ⟨p, named, member, rfl⟩ := checked_of_required found
      rw [checked_relaid Function.injective_id] at member
      rw [same p named member, required_of_checked member, quiet.base, quiet.members member]
    · intro found
      obtain ⟨p, named, member, rfl⟩ := checked_of_required found
      have again : i ∈ checker.checked (tree.relaid id (moved line offset) tokens) p := by
        rwa [checked_relaid Function.injective_id]
      rw [required_of_checked again, same p named member, quiet.base, quiet.members member]

/-- The nodes that a node measures: its checked children and the end of its body. -/
def measured (checker : Checker) (tree : Tree) (i : tree.Id) : List tree.Id :=
  checker.checked tree i ++ if (tree.node i).kind.hasBraces then (tree.ending? i).toList else []

theorem parent_of_measured {i c : tree.Id} (member : c ∈ checker.measured tree i) : (tree.node c).parent = some i := by
  apply tree.linked
  rcases List.mem_append.1 member with inside | inside
  · exact mem_children_of_checked checker inside
  · split at inside
    next => exact List.mem_of_getLast? (Tree.getLast?_of_ending? (Option.mem_toList.1 inside))
    next => cases inside

/-- What is found at a node that was moved away from where it belongs. -/
def strayed (tree : Tree) (offset : Int) (i : tree.Id) : Finding :=
  ⟨(tree.node i).line, (tree.node i).column + offset, .misplaced (tree.node i).column⟩

private theorem moved_ne_iff (away : offset ≠ 0) {l column : Int} : moved line offset l column ≠ column ↔ l = line := by
  unfold moved
  split
  next same => exact ⟨fun _ => same, fun _ => by omega⟩
  next other => simp [other]

private theorem findingOf_shifted {c : tree.Id} (starts : (tree.node c).line = line) :
    findingOf (tree.relaid id (moved line offset) tokens) (tree.node c).column c = strayed tree offset c := by
  simp [findingOf, strayed, Node.relaid, moved, starts]

section Findings

variable (quiet : checker.Quiet tree) (away : offset ≠ 0) (steady : checker.Steady tree line) (i : tree.Id)
include preorder quiet away steady

theorem misplaced_shifted :
    (checker.misplaced anew i).map (findingOf _ (checker.base anew i)) =
      ((checker.checked tree i).filter fun c => (tree.node c).line = line).map (strayed tree offset) := by
  have base : ∀ c ∈ checker.checked tree i, checker.base anew i = (tree.node c).column := fun c member =>
    base_of_known preorder anew quiet away steady member fun j _ => required_shifted preorder anew quiet away steady j
  have here : checker.misplaced anew i = (checker.checked tree i).filter fun c => (tree.node c).line = line := by
    rw [misplaced, checked_relaid Function.injective_id]
    apply List.filter_congr
    intro c member
    rw [base c member]
    exact decide_eq_decide.2 (moved_ne_iff away)
  rw [here]
  apply List.map_congr_left
  intro c member
  obtain ⟨member, starts⟩ := List.mem_filter.1 member
  rw [base c member]
  exact findingOf_shifted (of_decide_eq_true starts)

theorem misplacedEnd_shifted (braced : (tree.node i).kind.hasBraces) :
    (checker.misplacedEnd anew i).toList.map (findingOf _ (checker.settled anew (tree.anchorOf i))) =
      ((tree.ending? i).toList.filter fun c => (tree.node c).line = line).map (strayed tree offset) := by
  have settled : checker.settled anew (tree.anchorOf i) = (tree.node (tree.anchorOf i)).column :=
    settled_shifted preorder anew quiet away (steady.anchors braced)
      fun j _ => required_shifted preorder anew quiet away steady j
  have same : checker.misplacedEnd anew i = (tree.ending? i).filter fun last =>
      moved line offset (tree.node last).line (tree.node last).column ≠ checker.settled anew (tree.anchorOf i) := by
    rw [misplacedEnd, Tree.ending?_relaid Function.injective_id, Tree.anchorOf_relaid Function.injective_id]
    exact if_pos braced
  rw [same, settled]
  cases found : tree.ending? i with
  | none => rfl
  | some last =>
    rw [← quiet.ends braced found]
    by_cases starts : (tree.node last).line = line
    · have differs : moved line offset line (tree.node last).column ≠ (tree.node last).column :=
        (moved_ne_iff away).2 rfl
      simp [Option.filter, differs, starts, findingOf_shifted starts]
    · have stays : moved line offset (tree.node last).line (tree.node last).column = (tree.node last).column :=
        if_neg starts
      simp [Option.filter, stays, starts]

theorem findingsAt_shifted :
    checker.findingsAt anew i =
      ((checker.measured tree i).filter fun c => (tree.node c).line = line).map (strayed tree offset) := by
  rw [findingsAt, measured, List.filter_append, List.map_append,
    misplaced_shifted preorder anew quiet away steady i, Tree.anchorOf_relaid Function.injective_id]
  congr 1
  by_cases braced : (tree.node i).kind.hasBraces
  · rw [if_pos braced]
    exact misplacedEnd_shifted preorder anew quiet away steady i braced
  · have bare : checker.misplacedEnd anew i = none := if_neg braced
    rw [if_neg braced, bare]
    rfl

end Findings

end Indentation.Check.Checker
