import Indentation.Proofs.Flattening
import Indentation.Proofs.Traversal

/-! Trees numbered in pre-order. Every node is reached, children come after their parent
and in rising order, and the walk enters the nodes in the order of their numbers. A
flattened outline is such a tree. -/

namespace Indentation.Tree

variable {tree : Tree}

def Visit.entered? (visit : tree.Visit) : Option tree.Id :=
  match visit.phase with
  | .enter => some visit.node
  | .exit => none

structure Preorder (tree : Tree) : Prop where
  reached : ∀ i : tree.Id, ∃ depth, Reached tree depth i
  rising : ∀ p : tree.Id, (tree.node p).children.Pairwise (· < ·)
  later : ∀ {p c : tree.Id}, c ∈ (tree.node p).children → p < c
  entered : tree.walk.filterMap Visit.entered? = List.finRange tree.size

namespace Preorder

theorem parent_lt (preorder : Preorder tree) {i p : tree.Id} (named : (tree.node i).parent = some p) : p < i := by
  obtain ⟨_, reached⟩ := preorder.reached i
  obtain ⟨_, _, _, listed⟩ := reached.up named
  exact preorder.later listed

theorem listed (preorder : Preorder tree) {i p : tree.Id} (named : (tree.node i).parent = some p) :
    i ∈ (tree.node p).children := by
  obtain ⟨_, reached⟩ := preorder.reached i
  obtain ⟨_, _, _, listed⟩ := reached.up named
  exact listed

theorem exists_parent (preorder : Preorder tree) {i : tree.Id} (other : i ≠ tree.root) :
    ∃ p, (tree.node i).parent = some p := by
  obtain ⟨_, reached⟩ := preorder.reached i
  cases reached with
  | root => exact absurd rfl other
  | @child _ p _ _ listed => exact ⟨p, tree.linked listed⟩

end Preorder

/-- A node at or below another one. -/
inductive Inside (tree : Tree) (top : tree.Id) : tree.Id → Prop where
  | here : Inside tree top top
  | deeper {i p : tree.Id} (named : (tree.node i).parent = some p) (above : Inside tree top p) : Inside tree top i

theorem Inside.eq_of_childless (preorder : Preorder tree) {top i : tree.Id} (childless : (tree.node top).children = [])
    (inside : Inside tree top i) : i = top := by
  induction inside with
  | here => rfl
  | deeper named _ ih =>
    have listed := preorder.listed named
    rw [ih, childless] at listed
    cases listed

theorem Inside.ne_root {top i : tree.Id} (inside : Inside tree top i) (other : top ≠ tree.root) : i ≠ tree.root := by
  cases inside with
  | here => exact other
  | deeper named _ => exact ne_root_of_parent named

theorem Inside.down (preorder : Preorder tree) {top i : tree.Id} (inside : Inside tree top i) :
    i = top ∨ ∃ c ∈ (tree.node top).children, Inside tree c i := by
  induction inside with
  | here => exact .inl rfl
  | deeper named _ ih =>
    rcases ih with rfl | ⟨c, listed, above⟩
    · exact .inr ⟨_, preorder.listed named, .here⟩
    · exact .inr ⟨c, listed, .deeper named above⟩

theorem Preorder.inside_root (preorder : Preorder tree) (i : tree.Id) : Inside tree tree.root i := by
  obtain ⟨_, reached⟩ := preorder.reached i
  induction reached with
  | root => exact .here
  | child _ listed ih => exact .deeper (tree.linked listed) ih

private theorem ShowsAll.bounds {number : Nat} {ids : List tree.Id} {os : List Outline}
    (shows : ShowsAll tree number ids os) : ids.Pairwise (· < ·) ∧ ∀ i ∈ ids, number ≤ i.val := by
  induction os generalizing number ids with
  | nil =>
    cases shows
    exact ⟨.nil, nofun⟩
  | cons o rest ih =>
    cases shows with
    | cons here first later =>
      obtain ⟨rising, above⟩ := ih later
      have positive := o.size_pos
      refine ⟨List.pairwise_cons.2 ⟨?_, rising⟩, ?_⟩
      · intro j member
        have := above j member
        exact Fin.lt_def.2 (by omega)
      · intro j member
        rcases List.mem_cons.1 member with rfl | member
        · omega
        · have := above j member
          omega

mutual

/-- A subtree is a run of numbers that begins with its root. -/
theorem Shows.part {depth k : Nat} {i : tree.Id} (o : Outline) (shows : Shows tree i o) (reached : Reached tree depth i)
    (lower : i.val ≤ k) (upper : k < i.val + o.size) :
    ∃ (j : tree.Id) (level : Nat) (part : Outline), j.val = k ∧ Reached tree level j ∧ Shows tree j part ∧ part.Part o := by
  cases o with
  | node label children =>
    by_cases same : i.val = k
    · exact ⟨i, depth, .node label children, same, reached, shows, .whole⟩
    · cases shows with
      | node fits below =>
        rw [Outline.size] at upper
        obtain ⟨j, level, part, here, down, shown, o, member, deeper⟩ :=
          ShowsAll.part (k := k) children below (fun j listed => ⟨depth + 1, .child reached listed⟩) (by omega) (by omega)
        exact ⟨j, level, part, here, down, shown, .inner member deeper⟩

theorem ShowsAll.part {number k : Nat} {ids : List tree.Id} (os : List Outline) (shows : ShowsAll tree number ids os)
    (reached : ∀ i ∈ ids, ∃ depth, Reached tree depth i)
    (lower : number ≤ k) (upper : k < number + Outline.sizeAll os) :
    ∃ (j : tree.Id) (level : Nat) (part : Outline),
      j.val = k ∧ Reached tree level j ∧ Shows tree j part ∧ ∃ o ∈ os, part.Part o := by
  cases os with
  | nil =>
    rw [Outline.sizeAll] at upper
    omega
  | cons o rest =>
    rw [Outline.sizeAll] at upper
    cases shows with
    | cons here first later =>
      by_cases inside : k < number + o.size
      · obtain ⟨depth, above⟩ := reached _ List.mem_cons_self
        obtain ⟨j, level, part, here, down, shown, deeper⟩ := Shows.part (k := k) o first above (by omega) (by omega)
        exact ⟨j, level, part, here, down, shown, o, List.mem_cons_self, deeper⟩
      · obtain ⟨j, level, part, here, down, shown, other, member, deeper⟩ :=
          ShowsAll.part (k := k) rest later (fun j listed => reached j (List.mem_cons_of_mem _ listed)) (by omega) (by omega)
        exact ⟨j, level, part, here, down, shown, other, List.mem_cons_of_mem _ member, deeper⟩

end

theorem entered_visits_succ (levels : Nat) (i : tree.Id) :
    (tree.visits (levels + 1) i).filterMap Visit.entered? =
      i :: ((tree.node i).children.flatMap (tree.visits levels)).filterMap Visit.entered? := by
  simp [Tree.visits, Visit.entered?, List.filterMap_append]

mutual

theorem Shows.entered {levels : Nat} {i : tree.Id} (o : Outline) (shows : Shows tree i o) (enough : o.size ≤ levels) :
    ((tree.visits levels i).filterMap Visit.entered?).map Fin.val = List.range' i.val o.size := by
  cases o with
  | node label children =>
    rw [Outline.size] at enough ⊢
    cases shows with
    | node fits below =>
      cases levels with
      | zero => omega
      | succ levels =>
        rw [entered_visits_succ, List.map_cons, ShowsAll.entered children below (by omega), Nat.add_comm 1,
          List.range'_succ]

theorem ShowsAll.entered {levels number : Nat} {ids : List tree.Id} (os : List Outline)
    (shows : ShowsAll tree number ids os) (enough : Outline.sizeAll os ≤ levels) :
    ((ids.flatMap (tree.visits levels)).filterMap Visit.entered?).map Fin.val =
      List.range' number (Outline.sizeAll os) := by
  cases os with
  | nil =>
    cases shows
    rfl
  | cons o rest =>
    rw [Outline.sizeAll] at enough ⊢
    cases shows with
    | cons here first later =>
      rw [List.flatMap_cons, List.filterMap_append, List.map_append, Shows.entered o first (by omega),
        ShowsAll.entered rest later (by omega), here, List.range'_append_1]

end

private theorem map_val_finRange (n : Nat) : (List.finRange n).map Fin.val = List.range' 0 n := by
  apply List.ext_getElem
  · simp
  · simp

/-- Every node of a flattened outline is reached and shows a part of it. -/
theorem exists_part {root : Outline} {hidden : List Token} {tree : Tree} (flattened : root.toTree hidden = .ok tree)
    (i : tree.Id) : ∃ level o, Reached tree level i ∧ Shows tree i o ∧ o.Part root := by
  have shows := shows_toTree flattened
  have size := size_toTree flattened
  have first : tree.root.val = 0 := rfl
  obtain ⟨j, level, o, same, reached, shown, part⟩ :=
    shows.part root .root (Nat.zero_le i.val) (by have := i.isLt; omega)
  obtain rfl : j = i := Fin.ext same
  exact ⟨level, o, reached, shown, part⟩

theorem preorder_toTree {root : Outline} {hidden : List Token} {tree : Tree}
    (flattened : root.toTree hidden = .ok tree) : Preorder tree := by
  have shows := shows_toTree flattened
  have size := size_toTree flattened
  have first : tree.root.val = 0 := rfl
  have bounds : ∀ p : tree.Id, (tree.node p).children.Pairwise (· < ·) ∧
      ∀ c ∈ (tree.node p).children, p.val + 1 ≤ c.val := by
    intro p
    obtain ⟨_, _, _, shown, _⟩ := exists_part flattened p
    cases shown with
    | node fits below => exact below.bounds
  refine ⟨?_, fun p => (bounds p).1, ?_, ?_⟩
  · intro i
    obtain ⟨level, _, reached, _⟩ := exists_part flattened i
    exact ⟨level, reached⟩
  · intro p c listed
    exact Fin.lt_def.2 ((bounds p).2 c listed)
  · apply (List.map_inj_right fun _ _ => Fin.ext).1
    rw [walk_eq_visits, shows.entered root (by omega), map_val_finRange, first, ← size]

end Indentation.Tree
