import Indentation.Proofs.Anchoring

/-! What a rule looks at. From a node the search for an anchor and the search for a
correction go up to parents and across to the siblings listed beside a node, never down. So
a set of nodes that is closed under both holds everything that is looked at from within it,
and two tables that agree on the set put its nodes in the same columns. -/

namespace Indentation.Tree

variable {tree : Tree}

/-- A set of nodes that no search from within it leaves. -/
structure Upward (tree : Tree) (Within : tree.Id → Prop) : Prop where
  parent : ∀ {i p : tree.Id}, Within i → (tree.node i).parent = some p → Within p
  sibling : ∀ {i s p : tree.Id}, Within i → (tree.node i).parent = some p → s ∈ (tree.node p).children → Within s

namespace Upward

variable {Within : tree.Id → Prop} (upward : Upward tree Within)
include upward

theorem climb {i top : tree.Id} (climbs : Climbs tree i top) (within : Within i) : Within top := by
  induction climbs with
  | here => exact within
  | up step _ ih => exact ih (upward.parent within (lineParent?_eq_some.1 step).1)

theorem leftmost {i left : tree.Id} (within : Within i) (found : tree.leftmost i = .ok left) : Within left := by
  obtain ⟨top, climbs, _, looked⟩ := leftmost_cases found
  have above := upward.climb climbs within
  rcases lineStart_cases looked with rfl | ⟨p, named, earlier, _⟩
  · exact above
  · exact upward.sibling above named ((List.takeWhile_sublist _).subset earlier)

theorem anchorWithin {rounds : Nat} {i anchor : tree.Id} (within : Within i)
    (found : tree.anchorWithin rounds i = .ok anchor) : Within anchor := by
  induction rounds generalizing i with
  | zero =>
    cases found
    exact within
  | succ rounds ih =>
    unfold Tree.anchorWithin at found
    split at found
    next => cases found
    next left looked =>
      have beside := upward.leftmost within looked
      split at found
      next =>
        cases found
        exact beside
      next => exact ih beside found

theorem anchorOf {i : tree.Id} (within : Within i) : Within (tree.anchorOf i) := by
  unfold Tree.anchorOf
  split
  next anchor found => exact upward.anchorWithin within found
  next => exact within

section Tables

variable {table other : Corrections}
  (same : ∀ j : tree.Id, Within j → Corrections.of? table j.val = Corrections.of? other j.val)
include same

theorem correctionWithin (line : Int) (fuel : Nat) {i : tree.Id} (within : Within i) :
    tree.correctionWithin table line fuel i = tree.correctionWithin other line fuel i := by
  induction fuel generalizing i with
  | zero => rfl
  | succ fuel ih =>
    unfold Tree.correctionWithin
    rw [same i within]
    cases Corrections.of? other i.val with
    | some correction => rfl
    | none =>
      cases named : (tree.node i).parent with
      | none => rfl
      | some p =>
        dsimp only
        rw [ih (upward.parent within named)]

theorem indentOf {i : tree.Id} (within : Within i) : tree.indentOf table i = tree.indentOf other i := by
  unfold Tree.indentOf
  dsimp only
  rw [upward.correctionWithin same _ _ within]

end Tables
end Upward

/-- The nodes up to a depth. -/
theorem upward_of_depth (depth : Nat) : Upward tree fun i => ∃ level, level ≤ depth ∧ Reached tree level i := by
  constructor
  · rintro i p ⟨level, above, reached⟩ named
    obtain ⟨upper, rfl, parent, _⟩ := reached.up named
    exact ⟨upper, by omega, parent⟩
  · rintro i s p ⟨level, above, reached⟩ named listed
    obtain ⟨upper, rfl, parent, _⟩ := reached.up named
    exact ⟨upper + 1, above, .child parent listed⟩

theorem Reached.anchorOf_eq {depth : Nat} {i : tree.Id} (reached : Reached tree depth i) :
    tree.anchor i = .ok (tree.anchorOf i) := by
  obtain ⟨anchor, _, found, _⟩ := reached.anchor
  simp [Tree.anchorOf, found]

end Indentation.Tree
