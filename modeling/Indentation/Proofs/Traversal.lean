import Indentation.Proofs.Reach
import Indentation.Tree.Walk

/-! The walk of a tree, said twice more. As a loop it works off a stack with no bound on
how deep it may go; the levels that pending entries carry never run out, so the loop ends
and makes the same visits. As a recursion it enters a node, walks its children one after
the other and leaves the node. -/

namespace Indentation.Tree

variable {tree : Tree}

/-- The loop: what is on the stack, the next first, and all visits still to come. A node
that was entered waits below its children to be left. -/
inductive Works (tree : Tree) : List (tree.Id × Bool) → List tree.Visit → Prop where
  | done : Works tree [] []
  | leave {i : tree.Id} {rest : List (tree.Id × Bool)} {visits : List tree.Visit}
      (later : Works tree rest visits) : Works tree ((i, true) :: rest) (⟨.exit, i⟩ :: visits)
  | enter {i : tree.Id} {rest : List (tree.Id × Bool)} {visits : List tree.Visit}
      (later : Works tree ((tree.node i).children.map (·, false) ++ (i, true) :: rest) visits) :
      Works tree ((i, false) :: rest) (⟨.enter, i⟩ :: visits)

def Task.pending : Task tree → tree.Id × Bool
  | .enter _ i => (i, false)
  | .exit i => (i, true)

/-- An entry may open as many levels as there are nodes, less those above it. -/
def Task.Budgeted : Task tree → Prop
  | .enter levels i => ∃ depth, Reached tree depth i ∧ depth + levels = tree.size
  | .exit i => ∃ depth, Reached tree depth i

private theorem opened_pending {levels : Nat} {i : tree.Id} (budget : (Task.enter levels i).Budgeted) :
    (Task.opened levels i).map Task.pending = (tree.node i).children.map (·, false) ++ [(i, true)] := by
  obtain ⟨depth, reached, total⟩ := budget
  have inside := reached.depth_lt
  cases levels with
  | zero => omega
  | succ levels => simp [Task.opened, Task.pending, Function.comp_def]

private theorem opened_budgeted {levels : Nat} {i : tree.Id} (budget : (Task.enter levels i).Budgeted) :
    ∀ task ∈ Task.opened levels i, task.Budgeted := by
  obtain ⟨depth, reached, total⟩ := budget
  intro task member
  cases levels with
  | zero =>
    obtain rfl := List.mem_singleton.1 member
    exact ⟨depth, reached⟩
  | succ levels =>
    rcases List.mem_append.1 member with child | last
    · obtain ⟨c, listed, rfl⟩ := List.mem_map.1 child
      exact ⟨depth + 1, .child reached listed, by omega⟩
    · obtain rfl := List.mem_singleton.1 last
      exact ⟨depth, reached⟩

private theorem works_run (tasks : List (Task tree)) (budgets : ∀ task ∈ tasks, task.Budgeted) :
    Works tree (tasks.map Task.pending) (run tasks) := by
  fun_induction run tasks with
  | case1 => exact .done
  | case2 i rest ih =>
    exact .leave (ih fun task member => budgets task (List.mem_cons_of_mem _ member))
  | case3 levels i rest ih =>
    have budget := budgets _ List.mem_cons_self
    apply Works.enter
    have opened := ih (by
      intro task member
      rcases List.mem_append.1 member with new | old
      · exact opened_budgeted budget task new
      · exact budgets task (List.mem_cons_of_mem _ old))
    simpa [opened_pending budget] using opened

/-- The loop ends, and its visits are those of the walk. -/
theorem works_walk (tree : Tree) : Works tree [(tree.root, false)] tree.walk := by
  refine works_run [.enter tree.size tree.root] ?_
  intro task member
  obtain rfl := List.mem_singleton.1 member
  exact ⟨0, .root, Nat.zero_add _⟩

theorem Works.unique {stack : List (tree.Id × Bool)} {first second : List tree.Visit}
    (left : Works tree stack first) (right : Works tree stack second) : first = second := by
  induction left generalizing second with
  | done => cases right; rfl
  | leave _ ih => cases right with | leave later => rw [ih later]
  | enter _ ih => cases right with | enter later => rw [ih later]

private theorem Works.reached {stack : List (tree.Id × Bool)} {visits : List tree.Visit}
    (works : Works tree stack visits) (above : ∀ item ∈ stack, ∃ depth, Reached tree depth item.1) :
    ∀ visit ∈ visits, ∃ depth, Reached tree depth visit.node := by
  induction works with
  | done => intro visit member; cases member
  | leave _ ih =>
    intro visit member
    rcases List.mem_cons.1 member with rfl | later
    · exact above _ List.mem_cons_self
    · exact ih (fun item inside => above item (List.mem_cons_of_mem _ inside)) visit later
  | @enter i rest _ _ ih =>
    obtain ⟨depth, reached⟩ := above _ List.mem_cons_self
    intro visit member
    rcases List.mem_cons.1 member with rfl | later
    · exact ⟨depth, reached⟩
    · refine ih ?_ visit later
      intro item inside
      rcases List.mem_append.1 inside with child | old
      · obtain ⟨c, listed, rfl⟩ := List.mem_map.1 child
        exact ⟨depth + 1, .child reached listed⟩
      · rcases List.mem_cons.1 old with rfl | old
        · exact ⟨depth, reached⟩
        · exact above item (List.mem_cons_of_mem _ old)

theorem reached_of_mem_walk {visit : tree.Visit} (member : visit ∈ tree.walk) :
    ∃ depth, Reached tree depth visit.node := by
  refine (works_walk tree).reached ?_ visit member
  intro item inside
  obtain rfl := List.mem_singleton.1 inside
  exact ⟨0, .root⟩

/-- The visits below a node, as a recursion. -/
def visits (tree : Tree) : (levels : Nat) → tree.Id → List tree.Visit
  | 0, i => [⟨.enter, i⟩, ⟨.exit, i⟩]
  | levels + 1, i => ⟨.enter, i⟩ :: ((tree.node i).children.flatMap (visits tree levels) ++ [⟨.exit, i⟩])

def Task.visits : Task tree → List tree.Visit
  | .enter levels i => tree.visits levels i
  | .exit i => [⟨.exit, i⟩]

private theorem opened_visits (levels : Nat) (i : tree.Id) :
    tree.visits levels i = ⟨.enter, i⟩ :: (Task.opened levels i).flatMap Task.visits := by
  cases levels with
  | zero => rfl
  | succ levels => simp [Tree.visits, Task.opened, Task.visits, List.flatMap_map]

theorem run_eq_visits (tasks : List (Task tree)) : run tasks = tasks.flatMap Task.visits := by
  fun_induction run tasks with
  | case1 => rfl
  | case2 i rest ih => simp [ih, Task.visits]
  | case3 levels i rest ih =>
    rw [ih, List.flatMap_append, List.flatMap_cons, Task.visits, opened_visits, List.cons_append]

theorem walk_eq_visits (tree : Tree) : tree.walk = tree.visits tree.size tree.root := by
  simp [walk, run_eq_visits, Task.visits]

private theorem reached_of_mem_visits {levels depth : Nat} {i : tree.Id} (reached : Reached tree depth i)
    {visit : tree.Visit} (member : visit ∈ tree.visits levels i) :
    ∃ level, depth ≤ level ∧ Reached tree level visit.node := by
  induction levels generalizing depth i with
  | zero =>
    rw [visits] at member
    rcases List.mem_cons.1 member with rfl | member
    · exact ⟨depth, Nat.le_refl _, reached⟩
    · obtain rfl := List.mem_singleton.1 member
      exact ⟨depth, Nat.le_refl _, reached⟩
  | succ levels ih =>
    rw [visits] at member
    rcases List.mem_cons.1 member with rfl | member
    · exact ⟨depth, Nat.le_refl _, reached⟩
    rcases List.mem_append.1 member with below | last
    · obtain ⟨c, listed, inside⟩ := List.mem_flatMap.1 below
      obtain ⟨level, deeper, found⟩ := ih (.child reached listed) inside
      exact ⟨level, by omega, found⟩
    · obtain rfl := List.mem_singleton.1 last
      exact ⟨depth, Nat.le_refl _, reached⟩

/-- The root is entered first and left last, and not met in between. -/
theorem exists_walk_eq (tree : Tree) :
    ∃ between, tree.walk = ⟨.enter, tree.root⟩ :: (between ++ [⟨.exit, tree.root⟩]) ∧
      ∀ visit ∈ between, visit.node ≠ tree.root := by
  rw [walk_eq_visits, ← Nat.succ_pred_eq_of_pos tree.nonempty, visits]
  refine ⟨_, rfl, ?_⟩
  intro visit member same
  obtain ⟨c, listed, inside⟩ := List.mem_flatMap.1 member
  obtain ⟨level, deeper, reached⟩ := reached_of_mem_visits (.child .root listed) inside
  rw [same] at reached
  have zero := reached.depth_unique .root
  omega

end Indentation.Tree
