import Indentation.Tree.Basic

/-! Walking a tree depth first: a node is entered before its children and left after
them. What is still to do is kept on an explicit stack. Every pending entry carries how
many levels may yet open below it; the root starts with as many as there are nodes, and
a descent through listed children never uses them up. -/

namespace Indentation

inductive Phase where
  | enter
  | exit
  deriving DecidableEq, Repr

def Phase.name : Phase → String
  | .enter => "enter"
  | .exit => "exit"

namespace Tree

variable (tree : Tree)

structure Visit where
  phase : Phase
  node : tree.Id
  deriving DecidableEq, Repr

variable {tree} in
/-- The name of the hook by which a listener is told of a visit. -/
def Visit.hook (visit : tree.Visit) : String :=
  visit.phase.name ++ "_" ++ (tree.node visit.node).kind.name

/-- Visits of the subtree below a node, both of its own included. -/
def visitCount : (levels : Nat) → tree.Id → Nat
  | 0, _ => 2
  | levels + 1, i => 2 + (tree.node i).children.foldr (visitCount levels · + ·) 0

inductive Task where
  | enter (levels : Nat) (node : tree.Id)
  | exit (node : tree.Id)
  deriving DecidableEq, Repr

variable {tree}

def Task.cost : Task tree → Nat
  | .enter levels i => tree.visitCount levels i
  | .exit _ => 1

/-- What an entry leaves to do: the children in order, then the exit. -/
def Task.opened : (levels : Nat) → tree.Id → List (Task tree)
  | 0, i => [.exit i]
  | levels + 1, i => (tree.node i).children.map (.enter levels) ++ [.exit i]

/-- Visits a stack still asks for. -/
def Task.total (tasks : List (Task tree)) : Nat := tasks.foldr (cost · + ·) 0

private theorem total_append (first second : List (Task tree)) :
    Task.total (first ++ second) = Task.total first + Task.total second := by
  induction first with
  | nil => simp [Task.total]
  | cons task rest ih =>
    simp only [Task.total, List.cons_append, List.foldr_cons] at ih ⊢
    omega

private theorem total_opened (levels : Nat) (i : tree.Id) :
    Task.total (Task.opened levels i) < tree.visitCount levels i := by
  cases levels with
  | zero => simp [Task.opened, Task.total, Task.cost, visitCount]
  | succ levels =>
    have entries : Task.total ((tree.node i).children.map (.enter levels)) =
        (tree.node i).children.foldr (tree.visitCount levels · + ·) 0 := List.foldr_map
    have exits : Task.total [.exit i] = 1 := rfl
    rw [Task.opened, total_append, visitCount, entries, exits]
    omega

/-- Works off the stack. -/
def run : List (Task tree) → List (Visit tree)
  | [] => []
  | .exit i :: rest => ⟨.exit, i⟩ :: run rest
  | .enter levels i :: rest =>
    ⟨.enter, i⟩ :: run (Task.opened levels i ++ rest)
termination_by tasks => Task.total tasks
decreasing_by
  · simp only [Task.total, Task.cost, List.foldr_cons]
    omega
  · have opened := total_opened levels i
    rw [total_append]
    simp only [Task.total, Task.cost, List.foldr_cons] at opened ⊢
    omega

variable (tree)

/-- All visits of a walk from the root, in order. -/
def walk : List (Visit tree) := run [.enter tree.size tree.root]

/-- The calls that a walk makes to a listener, by the hooks that it has: a visit of which it
does not want to know is passed over. -/
def calls (has : String → Bool) : List (String × tree.Id) :=
  tree.walk.filterMap fun visit => if has visit.hook then some (visit.hook, visit.node) else none

end Tree
end Indentation
