import Indentation.Tree.Anchor
import Mathlib.Data.Fintype.Card

/-! The nodes that can be reached from the root through listed children. A tree promises
only that a listed child names its lister and that the root names no parent; nodes that
nobody lists may name each other in a circle. Below the root this is enough: going up from
a reached node leads back to the root by the way it was reached, so the way is shorter than
the row of nodes is long, and every reached node has an anchor, which is reached too. -/

namespace Indentation.Tree

/-- Reached from the root by going down so many listed children. -/
inductive Reached (tree : Tree) : Nat → tree.Id → Prop where
  | root : Reached tree 0 tree.root
  | child {depth : Nat} {p c : tree.Id} (above : Reached tree depth p)
      (listed : c ∈ (tree.node p).children) : Reached tree (depth + 1) c

variable {tree : Tree}

theorem parent_root : (tree.node tree.root).parent = none := tree.root_free

theorem ne_root_of_parent {i p : tree.Id} (named : (tree.node i).parent = some p) : i ≠ tree.root := by
  rintro rfl
  cases parent_root.symm.trans named

theorem ne_root_of_listed {p c : tree.Id} (listed : c ∈ (tree.node p).children) : c ≠ tree.root :=
  ne_root_of_parent (tree.linked listed)

theorem Reached.up {depth : Nat} {i p : tree.Id} (reached : Reached tree depth i)
    (named : (tree.node i).parent = some p) :
    ∃ above, depth = above + 1 ∧ Reached tree above p ∧ i ∈ (tree.node p).children := by
  cases reached with
  | root => cases parent_root.symm.trans named
  | @child above q _ reached listed =>
    have same : some q = some p := (tree.linked listed).symm.trans named
    cases same
    exact ⟨above, rfl, reached, listed⟩

theorem Reached.depth_unique {first second : Nat} {i : tree.Id} (left : Reached tree first i)
    (right : Reached tree second i) : first = second := by
  induction left generalizing second with
  | root =>
    cases right with
    | root => rfl
    | child _ listed => cases parent_root.symm.trans (tree.linked listed)
  | child _ listed ih =>
    obtain ⟨above, rfl, reached, _⟩ := right.up (tree.linked listed)
    rw [ih reached]

private theorem Reached.passes {depth level : Nat} {i : tree.Id} (reached : Reached tree depth i)
    (within : level ≤ depth) : ∃ j, Reached tree level j := by
  induction reached with
  | root =>
    obtain rfl := Nat.le_zero.1 within
    exact ⟨_, Reached.root⟩
  | @child depth p c above listed ih =>
    by_cases last : level = depth + 1
    · exact ⟨c, last ▸ .child above listed⟩
    · exact ih (by omega)

/-- The nodes on the way down stand at different depths, so they are different nodes. -/
theorem Reached.depth_lt {depth : Nat} {i : tree.Id} (reached : Reached tree depth i) :
    depth < tree.size := by
  have passed : ∀ level : Fin (depth + 1), ∃ j, Reached tree level j :=
    fun level => reached.passes (by omega)
  choose node at_level using passed
  have distinct : Function.Injective node := by
    intro first second same
    apply Fin.ext
    exact (at_level first).depth_unique (same ▸ at_level second)
  simpa [Nat.succ_le_iff] using Fintype.card_le_of_injective node distinct

theorem lineParent?_eq_some {i p : tree.Id} :
    tree.lineParent? i = some p ↔
      (tree.node i).parent = some p ∧ (tree.node i).line = (tree.node p).line ∧
        (tree.node p).kind ≠ .sourceUnit := by
  simp [lineParent?, Option.filter_eq_some_iff]

/-- Going up a line step by step. -/
inductive Climbs (tree : Tree) : tree.Id → tree.Id → Prop where
  | here {i : tree.Id} : Climbs tree i i
  | up {i p top : tree.Id} (step : tree.lineParent? i = some p) (rest : Climbs tree p top) :
      Climbs tree i top

theorem Climbs.line {i top : tree.Id} (climbs : Climbs tree i top) :
    (tree.node top).line = (tree.node i).line := by
  induction climbs with
  | here => rfl
  | up step _ ih => exact ih.trans (lineParent?_eq_some.1 step).2.1.symm

theorem climbs_of_outermostWithin {fuel : Nat} {i top : tree.Id}
    (found : tree.outermostWithin fuel i = some top) :
    Climbs tree i top ∧ tree.lineParent? top = none := by
  induction fuel generalizing i with
  | zero => cases found
  | succ fuel ih =>
    unfold outermostWithin at found
    split at found
    next stops => cases found; exact ⟨.here, stops⟩
    next p step =>
      obtain ⟨rest, stops⟩ := ih found
      exact ⟨.up step rest, stops⟩

theorem Reached.climb {depth : Nat} {i top : tree.Id} (reached : Reached tree depth i)
    (climbs : Climbs tree i top) : ∃ level, level ≤ depth ∧ Reached tree level top := by
  induction climbs generalizing depth with
  | here => exact ⟨depth, Nat.le_refl _, reached⟩
  | up step _ ih =>
    obtain ⟨above, rfl, parent, _⟩ := reached.up (lineParent?_eq_some.1 step).1
    obtain ⟨level, within, top⟩ := ih parent
    exact ⟨level, by omega, top⟩

private theorem Reached.outermostWithin {fuel depth : Nat} {i : tree.Id}
    (reached : Reached tree depth i) (enough : depth < fuel) :
    ∃ top, tree.outermostWithin fuel i = some top := by
  induction fuel generalizing depth i with
  | zero => omega
  | succ fuel ih =>
    unfold Tree.outermostWithin
    split
    next => exact ⟨i, rfl⟩
    next p step =>
      obtain ⟨above, rfl, parent, _⟩ := reached.up (lineParent?_eq_some.1 step).1
      exact ih parent (by omega)

theorem Reached.outermost {depth : Nat} {i : tree.Id} (reached : Reached tree depth i) :
    ∃ top level, tree.outermost? i = some top ∧ Climbs tree i top ∧
      tree.lineParent? top = none ∧ Reached tree level top := by
  obtain ⟨top, found⟩ := reached.outermostWithin reached.depth_lt
  obtain ⟨climbs, stops⟩ := climbs_of_outermostWithin found
  obtain ⟨level, _, above⟩ := reached.climb climbs
  exact ⟨top, level, found, climbs, stops, above⟩

/-- A reached node is listed by the parent it names. -/
theorem Reached.lineStart {depth : Nat} {i : tree.Id} (reached : Reached tree depth i) :
    ∃ left, tree.lineStart i = .ok left ∧ Reached tree depth left := by
  unfold Tree.lineStart
  split
  next => exact ⟨i, rfl, reached⟩
  next p named =>
    obtain ⟨above, rfl, parent, listed⟩ := reached.up named
    simp only [listed, ↓reduceIte]
    refine ⟨_, rfl, ?_⟩
    cases found : ((tree.node p).children.takeWhile (· ≠ i)).find?
        fun s => (tree.node s).stopLine = (tree.node i).line with
    | none => exact reached
    | some sibling =>
      have member := (List.takeWhile_sublist _).subset (List.mem_of_find?_eq_some found)
      exact .child parent member

theorem Reached.leftmost {depth : Nat} {i : tree.Id} (reached : Reached tree depth i) :
    ∃ left level, tree.leftmost i = .ok left ∧ Reached tree level left := by
  obtain ⟨top, level, found, _, _, above⟩ := reached.outermost
  obtain ⟨left, looked, beside⟩ := above.lineStart
  exact ⟨left, level, by simp [Tree.leftmost, found, looked], beside⟩

private theorem Reached.anchorWithin {rounds depth : Nat} {i : tree.Id}
    (reached : Reached tree depth i) :
    ∃ anchor level, tree.anchorWithin rounds i = .ok anchor ∧ Reached tree level anchor := by
  induction rounds generalizing depth i with
  | zero => exact ⟨i, depth, rfl, reached⟩
  | succ rounds ih =>
    obtain ⟨left, level, found, beside⟩ := reached.leftmost
    unfold Tree.anchorWithin
    simp only [found]
    split
    · exact ⟨left, level, rfl, beside⟩
    · exact ih beside

/-- Every reached node has an anchor. -/
theorem Reached.anchor {depth : Nat} {i : tree.Id} (reached : Reached tree depth i) :
    ∃ anchor level, tree.anchor i = .ok anchor ∧ Reached tree level anchor :=
  reached.anchorWithin

end Indentation.Tree
