import Indentation.Proofs.Preorder

/-! Anchors in a tree numbered in pre-order. A climb and a look to the left never lead to a
later node, and a round that changes the line leads to an earlier one. So the rounds that an
anchor is allowed are never used up, and the anchor obeys the equation without them. -/

namespace Indentation.Tree

variable {tree : Tree}

/-- The anchor of a node that has one. -/
def anchorOf (tree : Tree) (i : tree.Id) : tree.Id :=
  match tree.anchor i with
  | .ok anchor => anchor
  | .error _ => i

theorem find?_of_lineStart {i left : tree.Id} (found : tree.lineStart i = .ok left) :
    left = i ∨ ∃ p, (tree.node i).parent = some p ∧
      ((tree.node p).children.takeWhile (· ≠ i)).find? (fun s => (tree.node s).stopLine = (tree.node i).line) =
        some left := by
  unfold Tree.lineStart at found
  split at found
  next => cases found; exact .inl rfl
  next p named =>
    simp only at found
    split at found
    next =>
      cases looked : ((tree.node p).children.takeWhile (· ≠ i)).find?
          fun s => (tree.node s).stopLine = (tree.node i).line with
      | none =>
        rw [looked] at found
        cases found
        exact .inl rfl
      | some sibling =>
        rw [looked] at found
        cases found
        exact .inr ⟨p, named, looked⟩
    next => cases found

theorem lineStart_cases {i left : tree.Id} (found : tree.lineStart i = .ok left) :
    left = i ∨ ∃ p, (tree.node i).parent = some p ∧ left ∈ (tree.node p).children.takeWhile (· ≠ i) ∧
      (tree.node left).stopLine = (tree.node i).line := by
  rcases find?_of_lineStart found with same | ⟨p, named, looked⟩
  · exact .inl same
  · exact .inr ⟨p, named, List.mem_of_find?_eq_some looked, of_decide_eq_true (List.find?_some looked :)⟩

theorem leftmost_cases {i left : tree.Id} (found : tree.leftmost i = .ok left) :
    ∃ top, Climbs tree i top ∧ tree.lineParent? top = none ∧ tree.lineStart top = .ok left := by
  unfold Tree.leftmost at found
  split at found
  next => cases found
  next top climbed =>
    obtain ⟨climbs, stops⟩ := climbs_of_outermostWithin climbed
    exact ⟨top, climbs, stops, found⟩

theorem Climbs.ne_root {i top : tree.Id} (unit : (tree.node tree.root).kind = .sourceUnit)
    (other : i ≠ tree.root) (climbs : Climbs tree i top) : top ≠ tree.root := by
  induction climbs with
  | here => exact other
  | up step _ ih =>
    apply ih
    rintro rfl
    exact (lineParent?_eq_some.1 step).2.2 unit

theorem leftmost_ne_root {i left : tree.Id} (unit : (tree.node tree.root).kind = .sourceUnit)
    (other : i ≠ tree.root) (found : tree.leftmost i = .ok left) : left ≠ tree.root := by
  obtain ⟨top, climbs, _, looked⟩ := leftmost_cases found
  rcases lineStart_cases looked with rfl | ⟨p, _, earlier, _⟩
  · exact climbs.ne_root unit other
  · exact ne_root_of_listed ((List.takeWhile_sublist _).subset earlier)

namespace Preorder

theorem climbs_le (preorder : Preorder tree) {i top : tree.Id} (climbs : Climbs tree i top) : top ≤ i := by
  induction climbs with
  | here => exact Fin.le_refl _
  | up step _ ih => exact Fin.le_trans ih (Fin.le_of_lt (preorder.parent_lt (lineParent?_eq_some.1 step).1))

theorem takeWhile_of_split (preorder : Preorder tree) {p i : tree.Id} {before rest : List tree.Id}
    (split : (tree.node p).children = before ++ i :: rest) : (tree.node p).children.takeWhile (· ≠ i) = before := by
  have rising := preorder.rising p
  rw [split] at rising ⊢
  have distinct : ∀ b ∈ before, decide (b ≠ i) = true := by
    intro b member
    exact decide_eq_true (Fin.ne_of_lt ((List.pairwise_append.1 rising).2.2 b member i List.mem_cons_self))
  rw [List.takeWhile_append_of_pos distinct, List.takeWhile_cons_of_neg (by simp), List.append_nil]

theorem lt_of_mem_takeWhile (preorder : Preorder tree) {p i s : tree.Id} (listed : i ∈ (tree.node p).children)
    (member : s ∈ (tree.node p).children.takeWhile (· ≠ i)) : s < i := by
  obtain ⟨before, rest, split⟩ := List.append_of_mem listed
  have rising := preorder.rising p
  rw [preorder.takeWhile_of_split split] at member
  rw [split] at rising
  exact (List.pairwise_append.1 rising).2.2 s member i List.mem_cons_self

theorem mem_takeWhile_of_lt (preorder : Preorder tree) {p i s : tree.Id} (listed : i ∈ (tree.node p).children)
    (member : s ∈ (tree.node p).children) (less : s < i) : s ∈ (tree.node p).children.takeWhile (· ≠ i) := by
  obtain ⟨before, rest, split⟩ := List.append_of_mem listed
  have rising := preorder.rising p
  rw [preorder.takeWhile_of_split split]
  rw [split] at rising member
  rcases List.mem_append.1 member with earlier | later
  · exact earlier
  · rcases List.mem_cons.1 later with rfl | later
    · exact absurd less (Fin.lt_irrefl _)
    · have after := (List.pairwise_cons.1 (List.pairwise_append.1 rising).2.1).1 s later
      exact absurd (Fin.lt_trans less after) (Fin.lt_irrefl _)

theorem lineStart_le (preorder : Preorder tree) {i left : tree.Id} (found : tree.lineStart i = .ok left) :
    left ≤ i := by
  rcases lineStart_cases found with rfl | ⟨p, named, earlier, _⟩
  · exact Fin.le_refl _
  · exact Fin.le_of_lt (preorder.lt_of_mem_takeWhile (preorder.listed named) earlier)

theorem leftmost_le (preorder : Preorder tree) {i left : tree.Id} (found : tree.leftmost i = .ok left) :
    left ≤ i := by
  obtain ⟨top, climbs, _, looked⟩ := leftmost_cases found
  exact Fin.le_trans (preorder.lineStart_le looked) (preorder.climbs_le climbs)

/-- A round that changes the line leads to an earlier node. -/
theorem hop_lt (preorder : Preorder tree) {i left : tree.Id} (found : tree.leftmost i = .ok left)
    (changed : (tree.node left).line ≠ (tree.node i).line) : left.val < i.val := by
  rcases Fin.lt_or_eq_of_le (preorder.leftmost_le found) with earlier | rfl
  · exact earlier
  · exact absurd rfl changed

/-- Rounds beyond the number of a node change nothing. -/
private theorem anchorWithin_stable (preorder : Preorder tree) {first second : Nat} {i : tree.Id}
    (enough : i.val < first) (enough' : i.val < second) :
    tree.anchorWithin first i = tree.anchorWithin second i := by
  induction first generalizing i second with
  | zero => omega
  | succ first ih =>
    cases second with
    | zero => omega
    | succ second =>
      obtain ⟨_, reached⟩ := preorder.reached i
      obtain ⟨left, _, found, _⟩ := reached.leftmost
      simp only [anchorWithin, found]
      split
      · rfl
      next changed =>
        have earlier := preorder.hop_lt found changed
        exact ih (by omega) (by omega)

theorem anchor_eq (preorder : Preorder tree) (i : tree.Id) : tree.anchor i = .ok (tree.anchorOf i) := by
  obtain ⟨_, reached⟩ := preorder.reached i
  obtain ⟨anchor, _, found, _⟩ := reached.anchor
  simp [anchorOf, found]

theorem anchorOf_of_leftmost {i left : tree.Id} (found : tree.leftmost i = .ok left)
    (same : (tree.node left).line = (tree.node i).line) : tree.anchorOf i = left := by
  have positive := tree.nonempty
  have anchored : tree.anchor i = .ok left := by
    unfold anchor
    rw [← Nat.succ_pred_eq_of_pos positive]
    simp [anchorWithin, found, same]
  simp [anchorOf, anchored]

/-- A node whose leftmost node starts on another line shares the anchor of that one. -/
theorem anchorOf_of_hop (preorder : Preorder tree) {i left : tree.Id} (found : tree.leftmost i = .ok left)
    (changed : (tree.node left).line ≠ (tree.node i).line) : tree.anchorOf i = tree.anchorOf left := by
  have earlier := preorder.hop_lt found changed
  have inside := i.isLt
  have anchored : tree.anchor i = tree.anchor left := by
    have unrolled : tree.anchorWithin (i.val + 1) i = tree.anchorWithin i.val left := by
      simp [anchorWithin, found, changed]
    calc tree.anchor i = tree.anchorWithin (i.val + 1) i := preorder.anchorWithin_stable inside (Nat.lt_succ_self _)
      _ = tree.anchorWithin i.val left := unrolled
      _ = tree.anchor left := preorder.anchorWithin_stable earlier (by omega)
  simp only [anchorOf, anchored]
  rw [preorder.anchor_eq left]

/-- What every round keeps holds of the anchor. -/
theorem anchorOf_of_kept (preorder : Preorder tree) (Kept : tree.Id → Prop)
    (kept : ∀ {i left : tree.Id}, Kept i → tree.leftmost i = .ok left → Kept left) {i : tree.Id} (start : Kept i) :
    Kept (tree.anchorOf i) := by
  induction number : i.val using Nat.strongRecOn generalizing i with
  | ind number ih =>
    obtain ⟨_, reached⟩ := preorder.reached i
    obtain ⟨left, _, found, _⟩ := reached.leftmost
    by_cases same : (tree.node left).line = (tree.node i).line
    · rw [anchorOf_of_leftmost found same]
      exact kept start found
    · rw [preorder.anchorOf_of_hop found same]
      have less := preorder.hop_lt found same
      exact ih left.val (by omega) (kept start found) rfl

/-- Nothing below a source unit is measured from it. -/
theorem anchorOf_inner (preorder : Preorder tree) (unit : (tree.node tree.root).kind = .sourceUnit) {i : tree.Id}
    (other : i ≠ tree.root) : tree.anchorOf i ≠ tree.root :=
  preorder.anchorOf_of_kept (· ≠ tree.root) (fun inner found => leftmost_ne_root unit inner found) other

theorem anchorOf_le (preorder : Preorder tree) (i : tree.Id) : tree.anchorOf i ≤ i :=
  preorder.anchorOf_of_kept (· ≤ i) (fun before found => Fin.le_trans (preorder.leftmost_le found) before) (Fin.le_refl i)

end Preorder
end Indentation.Tree
