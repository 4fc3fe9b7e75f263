import Indentation.Check.Run
import Indentation.Proofs.Traversal

/-! The course of a check. A visit of a reached node is never stopped, so what a check does
is a plain function of the state it starts from: the visits of the walk, one after the
other. -/

namespace Indentation.Tree

variable {tree : Tree} {i : tree.Id}

private theorem position_of_opening {position : Nat} (opens : tree.opening? i = some position) :
    position < (tree.node i).children.length :=
  (List.findIdx?_eq_some_iff_getElem.1 opens).1

/-- A body that opens has a token that ends it, if only the opening brace itself. -/
theorem isSome_braces? : (tree.braces? i).isSome = (tree.opening? i).isSome := by
  cases opens : tree.opening? i with
  | none => simp [braces?, opens]
  | some position =>
    have inside := position_of_opening opens
    have some_child : (tree.node i).children ≠ [] := List.ne_nil_of_length_pos (by omega)
    simp [braces?, opens, List.getElem?_eq_getElem inside, List.getLast?_eq_some_getLast some_child]

end Indentation.Tree

namespace Indentation.Check.Checker

variable (checker : Checker) {tree : Tree}

def after (tree : Tree) (s : State) (visit : tree.Visit) : State :=
  match checker.visit tree visit s with
  | .ok _ s => s
  | .error _ s => s

/-- The rule for braces once the anchor is known. -/
def bracesAt (tree : Tree) (anchor i : tree.Id) (s : State) : State :=
  match tree.braces? i with
  | none => s
  | some (first, last) =>
    if (tree.node first).line = (tree.node last).line then s
    else checkEnd tree anchor last (checker.checkMembers tree anchor i s)

theorem checkBraces_eq {anchor i : tree.Id} (found : tree.anchor i = .ok anchor) (s : State) :
    checker.checkBraces tree i s = .ok () (checker.bracesAt tree anchor i s) := by
  unfold checkBraces bracesAt
  cases tree.braces? i with
  | none => rfl
  | some ends =>
    obtain ⟨first, last⟩ := ends
    by_cases same : (tree.node first).line = (tree.node last).line
    · simp only [same, ↓reduceIte]
      rfl
    · simp only [same, found, ↓reduceIte]
      rfl

private theorem apply_ok {depth : Nat} {i : tree.Id} (reached : Tree.Reached tree depth i)
    (rule : Rule) (s : State) : ∃ next, rule.apply checker tree i s = .ok () next := by
  cases rule with
  | braces =>
    obtain ⟨anchor, _, found, _⟩ := reached.anchor
    exact ⟨_, checker.checkBraces_eq found s⟩
  | _ => exact ⟨_, rfl⟩

theorem visit_eq {depth : Nat} {visit : tree.Visit} (reached : Tree.Reached tree depth visit.node)
    (s : State) : checker.visit tree visit s = .ok () (checker.after tree s visit) := by
  have unstopped : ∃ next, checker.visit tree visit s = .ok () next := by
    unfold Checker.visit
    cases Rule.of? visit.phase (tree.node visit.node).kind with
    | none => exact ⟨s, rfl⟩
    | some rule => exact apply_ok checker reached rule s
  obtain ⟨next, visited⟩ := unstopped
  simp [after, visited]

private theorem forM_visit (visits : List tree.Visit)
    (reached : ∀ visit ∈ visits, ∃ depth, Tree.Reached tree depth visit.node) (s : State) :
    visits.forM (checker.visit tree) s = .ok () (visits.foldl (checker.after tree) s) := by
  induction visits generalizing s with
  | nil => rfl
  | cons first rest ih =>
    obtain ⟨depth, inside⟩ := reached first List.mem_cons_self
    change (checker.visit tree first >>= fun _ => rest.forM (checker.visit tree)) s = _
    simp only [bind, EStateM.bind, checker.visit_eq inside]
    exact ih (fun visit member => reached visit (List.mem_cons_of_mem _ member)) _

/-- A check is never stopped. -/
theorem check_eq (tree : Tree) (s : State) :
    checker.check tree s =
      .ok () (tree.walk.foldl (checker.after tree) (s.note (.began tree.size))) :=
  forM_visit checker tree.walk (fun _ member => Tree.reached_of_mem_walk member) _

end Indentation.Check.Checker
