import Indentation.Check.Rule
import Mathlib.Order.Bounds.Defs

/-! Where lines start. A line starts in the least column of its significant tokens; comments
and the end of the file start nothing. The base indent check goes over the lines in rising
order, skips those on which something is misplaced, and finds the others that start between
two steps. -/

namespace Indentation.Check.Checker

variable {checker : Checker} {tree : Tree}

/-- The least column of the significant tokens on a line. -/
def StartsAt (tree : Tree) (line column : Int) : Prop :=
  IsLeast {c | ∃ t ∈ tree.tokens, t.channel = 0 ∧ 0 ≤ t.type ∧ t.line = line ∧ t.column = c} column

theorem startsAt_congr {first second : Tree} {line column : Int}
    (same : ∀ t : Token, t.line = line → (t ∈ first.tokens ↔ t ∈ second.tokens)) :
    StartsAt first line column ↔ StartsAt second line column := by
  have columns : {c | ∃ t ∈ first.tokens, t.channel = 0 ∧ 0 ≤ t.type ∧ t.line = line ∧ t.column = c} =
      {c | ∃ t ∈ second.tokens, t.channel = 0 ∧ 0 ≤ t.type ∧ t.line = line ∧ t.column = c} := by
    ext c
    constructor
    · rintro ⟨t, member, channel, type, level, stands⟩
      exact ⟨t, (same t level).1 member, channel, type, level, stands⟩
    · rintro ⟨t, member, channel, type, level, stands⟩
      exact ⟨t, (same t level).2 member, channel, type, level, stands⟩
  rw [StartsAt, StartsAt, columns]

theorem mem_columns {line column : Int} :
    column ∈ (tree.tokens.filter fun t => t.isSignificant && t.line = line).map (·.column) ↔
      ∃ t ∈ tree.tokens, t.channel = 0 ∧ 0 ≤ t.type ∧ t.line = line ∧ t.column = column := by
  simp only [List.mem_map, List.mem_filter, Token.isSignificant, Bool.and_eq_true, decide_eq_true_eq]
  constructor
  · rintro ⟨t, ⟨member, ⟨channel, type⟩, level⟩, stands⟩
    exact ⟨t, member, channel, type, level, stands⟩
  · rintro ⟨t, member, channel, type, level, stands⟩
    exact ⟨t, ⟨member, ⟨channel, type⟩, level⟩, stands⟩

theorem startOf_eq_some {line column : Int} : startOf tree line = some column ↔ StartsAt tree line column := by
  rw [startOf, List.min?_eq_some_iff, mem_columns]
  simp only [mem_columns]
  rfl

theorem mem_coveredLines {line : Int} :
    line ∈ coveredLines tree ↔ ∃ t ∈ tree.tokens, t.isSignificant ∧ t.line = line := by
  simp [coveredLines, and_assoc]

private theorem nodup_eraseDups (lines : List Int) : lines.eraseDups.Nodup := by
  cases lines with
  | nil => simp
  | cons line rest =>
    rw [List.eraseDups_cons, List.nodup_cons]
    refine ⟨?_, nodup_eraseDups (rest.filter fun other => !other == line)⟩
    simp [List.mem_eraseDups]
termination_by lines.length
decreasing_by exact Nat.lt_succ_of_le (List.length_filter_le _ rest)

theorem coveredLines_rising (tree : Tree) : (coveredLines tree).Pairwise (· < ·) := by
  have sorted : (coveredLines tree).Pairwise fun a b => decide (a ≤ b) = true :=
    List.pairwise_mergeSort (by simpa using fun a b c => Int.le_trans) (by simpa using Int.le_total) _
  have distinct : (coveredLines tree).Nodup :=
    (List.mergeSort_perm _ _).nodup_iff.2 (nodup_eraseDups _)
  refine (sorted.and distinct).imp ?_
  rintro a b ⟨upto, other⟩
  have := of_decide_eq_true upto
  omega

theorem unevenLine?_eq_some {line : Int} {finding : Finding} :
    checker.unevenLine? tree line = some finding ↔
      ∃ column, StartsAt tree line column ∧ ¬ checker.options.step ∣ column ∧ finding = ⟨line, column, .uneven⟩ := by
  unfold unevenLine?
  simp only [← startOf_eq_some]
  cases startOf tree line with
  | none => simp
  | some column =>
    simp only [Option.some.injEq, exists_eq_left']
    rw [Int.dvd_iff_emod_eq_zero]
    by_cases even : column % checker.options.step = 0
    · simp [even]
    · simp [even, eq_comm]

theorem line_of_unevenLine? {line : Int} {finding : Finding} (found : checker.unevenLine? tree line = some finding) :
    finding.line = line := by
  obtain ⟨_, _, _, rfl⟩ := unevenLine?_eq_some.1 found
  rfl

/-- The uneven lines outside a list of lines. -/
def unevenOutside (checker : Checker) (tree : Tree) (skipped : List Int) : List Finding :=
  ((coveredLines tree).filter fun line => !skipped.contains line).filterMap (checker.unevenLine? tree)

theorem unevenOutside_congr {first second : List Int} (same : ∀ line, line ∈ first ↔ line ∈ second) :
    checker.unevenOutside tree first = checker.unevenOutside tree second := by
  have skips : ∀ line, first.contains line = second.contains line := by
    intro line
    rw [Bool.eq_iff_iff, List.contains_iff_mem, List.contains_iff_mem, same]
  unfold unevenOutside
  simp only [skips]

variable (skipped : List Int)

theorem unevenOutside_rising : (checker.unevenOutside tree skipped).Pairwise fun a b => a.line < b.line := by
  refine ((coveredLines_rising tree).filter _).filterMap _ ?_
  intro a b less first found second looked
  rw [line_of_unevenLine? found, line_of_unevenLine? looked]
  exact less

variable {skipped}

theorem mem_unevenOutside {finding : Finding} :
    finding ∈ checker.unevenOutside tree skipped ↔
      StartsAt tree finding.line finding.column ∧ ¬ checker.options.step ∣ finding.column ∧
        finding.cause = .uneven ∧ finding.line ∉ skipped := by
  have covered : ∀ {line column}, StartsAt tree line column → line ∈ coveredLines tree := by
    rintro line column ⟨⟨t, member, channel, type, level, _⟩, _⟩
    exact mem_coveredLines.2 ⟨t, member, by simp [Token.isSignificant, channel, type], level⟩
  simp only [unevenOutside, List.mem_filterMap, List.mem_filter, unevenLine?_eq_some]
  constructor
  · rintro ⟨line, ⟨_, outside⟩, column, starts, uneven, rfl⟩
    exact ⟨starts, uneven, rfl, by simpa using outside⟩
  · rintro ⟨starts, uneven, cause, outside⟩
    refine ⟨finding.line, ⟨covered starts, by simpa using outside⟩, finding.column, starts, uneven, ?_⟩
    rw [← cause]

theorem unevenOutside_eq_nil (even : ∀ t ∈ tree.tokens, t.line ∉ skipped → checker.options.step ∣ t.column) :
    checker.unevenOutside tree skipped = [] := by
  refine List.eq_nil_iff_forall_not_mem.2 fun finding member => ?_
  obtain ⟨⟨⟨t, inside, _, _, level, column⟩, _⟩, odd, _, outside⟩ := mem_unevenOutside.1 member
  exact odd (column ▸ even t inside (level ▸ outside))

/-- The findings of the base indent check of a source unit, when others have been made before:
one for each line that starts between two steps, unless something else was found on it. -/
structure Uneven (checker : Checker) (tree : Tree) (before found : List Finding) : Prop where
  rising : found.Pairwise (·.line < ·.line)
  lines : ∀ finding, finding ∈ found ↔
    (tree.node tree.root).kind = .sourceUnit ∧ StartsAt tree finding.line finding.column ∧
      ¬ checker.options.step ∣ finding.column ∧ finding.cause = .uneven ∧ ∀ earlier ∈ before, earlier.line ≠ finding.line

theorem uneven_unevenOutside {before : List Finding} (unit : (tree.node tree.root).kind = .sourceUnit)
    (flagged : ∀ line, line ∈ skipped ↔ ∃ finding ∈ before, finding.line = line) :
    checker.Uneven tree before (checker.unevenOutside tree skipped) := by
  refine ⟨unevenOutside_rising skipped, fun finding => ?_⟩
  rw [mem_unevenOutside, flagged]
  simp [unit]

theorem nodup_of_rising {found : List Finding} (rising : found.Pairwise (·.line < ·.line)) : found.Nodup :=
  rising.imp fun less same => absurd (congrArg Finding.line same) (by omega)

/-- There is one such row of findings. -/
theorem Uneven.unique {before first second : List Finding} (one : checker.Uneven tree before first)
    (other : checker.Uneven tree before second) : first = second := by
  have same : ∀ finding, finding ∈ first ↔ finding ∈ second := fun finding =>
    (one.lines finding).trans (other.lines finding).symm
  refine List.Perm.eq_of_pairwise ?_ one.rising other.rising
    ((List.perm_ext_iff_of_nodup (nodup_of_rising one.rising) (nodup_of_rising other.rising)).2 same)
  intro a b _ _ less more
  omega

theorem uneven_nil {before : List Finding} (other : (tree.node tree.root).kind ≠ .sourceUnit) :
    checker.Uneven tree before [] :=
  ⟨.nil, fun finding => by simp [other]⟩

end Indentation.Check.Checker
