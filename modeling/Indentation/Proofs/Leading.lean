import Indentation.Proofs.Anchoring

/-! Finding the anchor step by step. A node whose parent starts on its line shares the
anchor of the parent. Any other node looks at the siblings before it: the first that ends on
its line is its anchor if it starts there too, and shares its anchor if it does not. A node
with no such sibling leads its line. -/

namespace Indentation.Tree

variable {tree : Tree} {i p : tree.Id}

theorem Climbs.unique {first second : tree.Id} (left : Climbs tree i first) (right : Climbs tree i second)
    (stops : tree.lineParent? first = none) (halts : tree.lineParent? second = none) : first = second := by
  induction left with
  | here =>
    cases right with
    | here => rfl
    | up step _ => cases stops.symm.trans step
  | up step _ ih =>
    cases right with
    | here => cases halts.symm.trans step
    | up again rest =>
      cases step.symm.trans again
      exact ih rest stops

theorem leftmost_of_stop (stops : tree.lineParent? i = none) : tree.leftmost i = tree.lineStart i := by
  have positive := tree.nonempty
  have climbed : tree.outermost? i = some i := by
    unfold outermost?
    rw [← Nat.succ_pred_eq_of_pos positive, outermostWithin, stops]
  rw [leftmost, climbed]

theorem lineParent?_eq_none (named : (tree.node i).parent = some p)
    (other : (tree.node i).line ≠ (tree.node p).line ∨ (tree.node p).kind = .sourceUnit) :
    tree.lineParent? i = none := by
  rw [Option.eq_none_iff_forall_ne_some]
  intro q found
  obtain ⟨again, level, kind⟩ := lineParent?_eq_some.1 found
  obtain rfl : p = q := Option.some.inj (named.symm.trans again)
  rcases other with apart | unit
  · exact apart level
  · exact kind unit

namespace Preorder

variable (preorder : Preorder tree)
include preorder

theorem leftmost_of_climbs {top : tree.Id} (climbs : Climbs tree i top) (stops : tree.lineParent? top = none) :
    tree.leftmost i = tree.lineStart top := by
  obtain ⟨_, reached⟩ := preorder.reached i
  obtain ⟨other, _, climbed, rest, halts, _⟩ := reached.outermost
  obtain rfl : top = other := climbs.unique rest stops halts
  rw [leftmost, climbed]

theorem anchorOf_of_lineParent (step : tree.lineParent? i = some p) : tree.anchorOf i = tree.anchorOf p := by
  obtain ⟨named, level, _⟩ := lineParent?_eq_some.1 step
  obtain ⟨_, reached⟩ := preorder.reached i
  obtain ⟨_, above⟩ := preorder.reached p
  obtain ⟨top, _, _, climbs, stops, _⟩ := above.outermost
  have same : tree.leftmost i = tree.leftmost p :=
    (preorder.leftmost_of_climbs (.up step climbs) stops).trans (preorder.leftmost_of_climbs climbs stops).symm
  obtain ⟨left, _, looked, _⟩ := reached.leftmost
  have again := same.symm.trans looked
  by_cases here : (tree.node left).line = (tree.node i).line
  · rw [anchorOf_of_leftmost looked here, anchorOf_of_leftmost again (here.trans level)]
  · rw [preorder.anchorOf_of_hop looked here, preorder.anchorOf_of_hop again (by rwa [← level])]

theorem lineStart_of_split {before rest : List tree.Id} (split : (tree.node p).children = before ++ i :: rest) :
    tree.lineStart i =
      .ok ((before.find? fun s => (tree.node s).stopLine = (tree.node i).line).getD i) := by
  have listed : i ∈ (tree.node p).children := by rw [split]; simp
  have named := tree.linked listed
  rw [lineStart, named]
  simp only [listed, ↓reduceIte]
  rw [preorder.takeWhile_of_split split]

end Preorder

/-- A node with nothing before it on its line. -/
structure Leads (tree : Tree) (i : tree.Id) : Prop where
  stops : tree.lineParent? i = none
  first : tree.lineStart i = .ok i

theorem Leads.anchorOf (leads : Leads tree i) : tree.anchorOf i = i :=
  Preorder.anchorOf_of_leftmost ((leftmost_of_stop leads.stops).trans leads.first) rfl

namespace Preorder

variable (preorder : Preorder tree) {before rest : List tree.Id}
  (split : (tree.node p).children = before ++ i :: rest) (stops : tree.lineParent? i = none)
include preorder split stops

theorem leads_of_split (others : ∀ s ∈ before, (tree.node s).stopLine ≠ (tree.node i).line) : Leads tree i := by
  refine ⟨stops, ?_⟩
  have none : before.find? (fun s => (tree.node s).stopLine = (tree.node i).line) = none := by
    rw [List.find?_eq_none]
    intro s member
    simpa using others s member
  rw [preorder.lineStart_of_split split, none]
  rfl

/-- The first sibling that ends on the line, if it starts on it. -/
theorem anchorOf_of_sibling {s : tree.Id}
    (found : before.find? (fun s => (tree.node s).stopLine = (tree.node i).line) = some s)
    (level : (tree.node s).line = (tree.node i).line) : tree.anchorOf i = s := by
  refine anchorOf_of_leftmost ?_ level
  rw [leftmost_of_stop stops, preorder.lineStart_of_split split, found]
  rfl

/-- The first sibling that ends on the line, if it starts earlier. -/
theorem anchorOf_of_earlier {s : tree.Id}
    (found : before.find? (fun s => (tree.node s).stopLine = (tree.node i).line) = some s)
    (other : (tree.node s).line ≠ (tree.node i).line) : tree.anchorOf i = tree.anchorOf s := by
  refine preorder.anchorOf_of_hop ?_ other
  rw [leftmost_of_stop stops, preorder.lineStart_of_split split, found]
  rfl

end Preorder
end Indentation.Tree
