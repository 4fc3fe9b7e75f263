import Mathlib.Data.Fintype.Pigeonhole
import Indentation.Proofs.Reach

/-! Going up step by step, as far as it goes. Where parent links run in a circle an ascent
has no end, but after as many steps as there are nodes it has met a node twice and meets
nothing new. So the first node of a sort that an ascent meets is met before that, and a
search that gives up there misses nothing: the column a node belongs in is the one that an
ascent without any bound gives. -/

namespace Indentation.Tree

variable {tree : Tree}

/-- Where so many steps lead, if all of them can be made. -/
def risen (step : tree.Id → Option tree.Id) : Nat → tree.Id → Option tree.Id
  | 0, i => some i
  | count + 1, i => (step i).bind (risen step count)

section Steps

variable {step : tree.Id → Option tree.Id} {i j : tree.Id} {count : Nat}

theorem risen_add (first second : Nat) (i : tree.Id) :
    risen step (first + second) i = (risen step first i).bind (risen step second) := by
  induction first generalizing i with
  | zero => rw [Nat.zero_add, risen, Option.bind_some]
  | succ first ih =>
    rw [Nat.succ_add, risen, risen, Option.bind_assoc]
    exact congrArg _ (funext ih)

theorem exists_risen_of_le {fewer : Nat} (up : risen step count i = some j) (le : fewer ≤ count) :
    ∃ passed, risen step fewer i = some passed := by
  obtain ⟨rest, rfl⟩ := Nat.exists_eq_add_of_le le
  rw [risen_add] at up
  obtain ⟨passed, here, _⟩ := Option.bind_eq_some_iff.1 up
  exact ⟨passed, here⟩

/-- An ascent of as many steps as there are nodes meets one of them twice. -/
theorem exists_met_twice (far : tree.size ≤ count) (up : risen step count i = some j) :
    ∃ earlier later met, earlier < later ∧ later ≤ count ∧
      risen step earlier i = some met ∧ risen step later i = some met := by
  have passes : ∀ n : Fin (count + 1), ∃ passed, risen step n i = some passed :=
    fun n => exists_risen_of_le up (Nat.lt_succ_iff.1 n.isLt)
  choose passed at_step using passes
  obtain ⟨first, second, other, same⟩ := Fintype.exists_ne_map_eq_of_card_lt passed (by simpa using Nat.lt_succ_of_le far)
  rcases Nat.lt_or_gt_of_ne (Fin.val_ne_of_ne other) with less | more
  · exact ⟨first, second, passed second, less, Nat.lt_succ_iff.1 second.isLt, same ▸ at_step first, at_step second⟩
  · exact ⟨second, first, passed first, more, Nat.lt_succ_iff.1 first.isLt, same ▸ at_step second, at_step first⟩

/-- The first node of a sort is met before there can be a return. -/
theorem first_lt_size (Sought : tree.Id → Prop) (up : risen step count i = some j) (sought : Sought j)
    (first : ∀ fewer < count, ∀ passed, risen step fewer i = some passed → ¬ Sought passed) : count < tree.size := by
  by_contra far
  obtain ⟨earlier, later, met, less, within, before, after⟩ := exists_met_twice (Nat.le_of_not_lt far) up
  obtain ⟨rest, rfl⟩ := Nat.exists_eq_add_of_le within
  -- What is met in the same distance from the earlier of the two is the same node.
  have again : risen step (earlier + rest) i = some j := by
    rw [risen_add, after, Option.bind_some] at up
    rw [risen_add, before, Option.bind_some, up]
  exact first (earlier + rest) (by omega) j again sought

end Steps

/-- The parent, if it starts on a line. -/
def parentOn? (tree : Tree) (line : Int) (i : tree.Id) : Option tree.Id :=
  (tree.node i).parent.filter fun p => (tree.node p).line = line

variable (table : Corrections) (line : Int)

theorem correctionWithin_succ (fuel : Nat) (i : tree.Id) :
    tree.correctionWithin table line (fuel + 1) i =
      (Corrections.of? table i.val).or ((tree.parentOn? line i).bind (tree.correctionWithin table line fuel)) := by
  rw [correctionWithin]
  cases Corrections.of? table i.val with
  | some correction => rfl
  | none =>
    rw [Option.none_or, parentOn?]
    cases (tree.node i).parent with
    | none => rfl
    | some p =>
      by_cases level : (tree.node p).line = line
      · simp [level, Option.filter]
      · simp [level, Option.filter]

/-- So many steps up the line there stands the first node with a correction, this one. -/
def FirstCorrected (i : tree.Id) (count : Nat) (correction : Correction) : Prop :=
  (∃ j, risen (tree.parentOn? line) count i = some j ∧ Corrections.of? table j.val = some correction) ∧
    ∀ fewer < count, ∀ j, risen (tree.parentOn? line) fewer i = some j → Corrections.of? table j.val = none

variable {table line}

theorem FirstCorrected.lt_size {i : tree.Id} {count : Nat} {correction : Correction}
    (corrected : FirstCorrected table line i count correction) : count < tree.size := by
  obtain ⟨⟨j, up, found⟩, first⟩ := corrected
  refine first_lt_size (fun j => (Corrections.of? table j.val).isSome) up (by simp [found]) ?_
  intro fewer less passed met
  simp [first fewer less passed met]

theorem exists_firstCorrected {i j : tree.Id} {count : Nat} {correction : Correction}
    (up : risen (tree.parentOn? line) count i = some j) (found : Corrections.of? table j.val = some correction) :
    ∃ fewer earlier, FirstCorrected table line i fewer earlier := by
  induction count using Nat.strongRecOn generalizing j correction with
  | ind count ih =>
    by_cases first : ∀ fewer < count, ∀ j, risen (tree.parentOn? line) fewer i = some j →
        Corrections.of? table j.val = none
    · exact ⟨count, correction, ⟨j, up, found⟩, first⟩
    · push Not at first
      obtain ⟨fewer, less, met, passed, known⟩ := first
      obtain ⟨earlier, known⟩ := Option.ne_none_iff_exists'.1 known
      exact ih fewer less passed known

/-- A search through so many nodes finds the first correction among them. -/
theorem correctionWithin_eq_some_iff {fuel : Nat} {i : tree.Id} {correction : Correction} :
    tree.correctionWithin table line fuel i = some correction ↔
      ∃ count < fuel, FirstCorrected table line i count correction := by
  induction fuel generalizing i with
  | zero => simp [correctionWithin]
  | succ fuel ih =>
    rw [correctionWithin_succ]
    cases here : Corrections.of? table i.val with
    | some known =>
      rw [Option.some_or]
      constructor
      · rintro ⟨rfl⟩
        exact ⟨0, Nat.succ_pos _, ⟨i, rfl, here⟩, nofun⟩
      · rintro ⟨count, _, ⟨j, up, found⟩, first⟩
        cases count with
        | zero =>
          obtain rfl : i = j := Option.some.inj up
          rw [← here, found]
        | succ count => cases here.symm.trans (first 0 (Nat.succ_pos _) i rfl)
    | none =>
      rw [Option.none_or, Option.bind_eq_some_iff]
      constructor
      · rintro ⟨p, step, later⟩
        obtain ⟨count, less, ⟨j, up, found⟩, first⟩ := ih.1 later
        refine ⟨count + 1, Nat.succ_lt_succ less, ⟨j, by rw [risen, step, Option.bind_some, up], found⟩, ?_⟩
        intro fewer less j up
        cases fewer with
        | zero =>
          obtain rfl : i = j := Option.some.inj up
          exact here
        | succ fewer =>
          rw [risen, step, Option.bind_some] at up
          exact first fewer (Nat.lt_of_succ_lt_succ less) j up
      · rintro ⟨count, less, ⟨j, up, found⟩, first⟩
        cases count with
        | zero =>
          obtain rfl : i = j := Option.some.inj up
          cases here.symm.trans found
        | succ count =>
          rw [risen] at up
          obtain ⟨p, step, above⟩ := Option.bind_eq_some_iff.1 up
          refine ⟨p, step, ih.2 ⟨count, Nat.lt_of_succ_lt_succ less, ⟨j, above, found⟩, ?_⟩⟩
          intro fewer less j up
          exact first (fewer + 1) (Nat.succ_lt_succ less) j (by rw [risen, step, Option.bind_some, up])

theorem correctionWithin_of_size_le {fuel : Nat} (enough : tree.size ≤ fuel) (i : tree.Id) :
    tree.correctionWithin table line fuel i = tree.correctionWithin table line tree.size i := by
  apply Option.ext
  intro correction
  rw [correctionWithin_eq_some_iff, correctionWithin_eq_some_iff]
  constructor
  · rintro ⟨count, _, corrected⟩
    exact ⟨count, corrected.lt_size, corrected⟩
  · rintro ⟨count, less, corrected⟩
    exact ⟨count, Nat.lt_of_lt_of_le less enough, corrected⟩

/-- The column a node belongs in, said without a bound. The ascent goes on from parent to
parent as long as there is one and it starts on the node's line; it may go on for ever. -/
inductive Belongs (tree : Tree) (table : Corrections) (i : tree.Id) : Int → Prop where
  | corrected {count : Nat} {correction : Correction}
      (first : FirstCorrected table (tree.node i).line i count correction) :
      Belongs tree table i ((tree.node i).column - correction.observed + correction.expected)
  | uncorrected
      (free : ∀ count j, risen (tree.parentOn? (tree.node i).line) count i = some j →
        Corrections.of? table j.val = none) :
      Belongs tree table i (tree.node i).column

theorem belongs_indentOf (tree : Tree) (table : Corrections) (i : tree.Id) :
    Belongs tree table i (tree.indentOf table i) := by
  unfold indentOf
  dsimp only
  cases searched : tree.correctionWithin table (tree.node i).line tree.size i with
  | some correction =>
    obtain ⟨_, _, corrected⟩ := correctionWithin_eq_some_iff.1 searched
    exact .corrected corrected
  | none =>
    refine .uncorrected ?_
    intro count j up
    by_contra known
    obtain ⟨correction, found⟩ := Option.ne_none_iff_exists'.1 known
    obtain ⟨fewer, earlier, corrected⟩ := exists_firstCorrected up found
    cases searched.symm.trans (correctionWithin_eq_some_iff.2 ⟨fewer, corrected.lt_size, corrected⟩)

theorem FirstCorrected.unique {i : tree.Id} {count other : Nat} {correction second : Correction}
    (corrected : FirstCorrected table line i count correction) (again : FirstCorrected table line i other second) :
    correction = second := by
  obtain ⟨⟨j, up, found⟩, first⟩ := corrected
  obtain ⟨⟨k, rises, known⟩, before⟩ := again
  rcases Nat.lt_trichotomy count other with less | rfl | more
  · cases found.symm.trans (before count less j up)
  · obtain rfl : j = k := Option.some.inj (up.symm.trans rises)
    exact Option.some.inj (found.symm.trans known)
  · cases known.symm.trans (first other more k rises)

theorem Belongs.unique {i : tree.Id} {column other : Int} (belongs : Belongs tree table i column)
    (again : Belongs tree table i other) : column = other := by
  cases belongs with
  | corrected first =>
    cases again with
    | corrected second => rw [first.unique second]
    | uncorrected free =>
      obtain ⟨⟨j, up, found⟩, _⟩ := first
      cases found.symm.trans (free _ j up)
  | uncorrected free =>
    cases again with
    | corrected second =>
      obtain ⟨⟨j, up, found⟩, _⟩ := second
      cases found.symm.trans (free _ j up)
    | uncorrected _ => rfl

/-- In every tree, whatever its parent links do, the search that gives up after as many nodes
as there are gives the one column that the search without a bound gives; looking at more nodes
would find nothing else. -/
theorem indentOf_loses_nothing (tree : Tree) (table : Corrections) (i : tree.Id) :
    (∀ column, Belongs tree table i column ↔ tree.indentOf table i = column) ∧
      ∀ fuel, tree.size ≤ fuel →
        tree.correctionWithin table (tree.node i).line fuel i =
          tree.correctionWithin table (tree.node i).line tree.size i := by
  have here := belongs_indentOf tree table i
  refine ⟨?_, fun fuel enough => correctionWithin_of_size_le enough i⟩
  intro column
  constructor
  · intro belongs
    exact here.unique belongs
  · rintro rfl
    exact here

end Indentation.Tree
