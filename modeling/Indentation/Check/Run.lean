import Indentation.Check.Rule

/-! Checking a whole tree, and the single operations of a checker that is used step by
step on several trees. -/

namespace Indentation.Check

namespace Checker

variable (checker : Checker)

def visit (tree : Tree) (visit : tree.Visit) : Step Unit :=
  match Rule.of? visit.phase (tree.node visit.node).kind with
  | some rule => rule.apply checker tree visit.node
  | none => pure ()

/-- Walks the tree and applies the rules on the way. -/
def check (tree : Tree) : Step Unit := do
  modify (·.note (.began tree.size))
  tree.walk.forM (visit checker tree)

end Checker

inductive Operation where
  | record (key : Key) (observed expected : Value)
  | check (tree : Tree)
  | braces (tree : Tree) (number : Int)
  | member (tree : Tree) (number required : Int)
  | body (tree : Tree) (number position : Int)
  | bodies (tree : Tree) (number : Int) (positions : List Int)
  | multiples (tree : Tree) (skipped : List Int)
  | apply (rule : Rule) (tree : Tree) (number : Int)

/-- Records a correction and says whether it is the first under its key. -/
def record (key : Key) (observed expected : Value) : Step Bool := do
  if Table.has (← get).corrections key then return false
  match (Correction.read { fields := [("observed", observed), ("expected", expected)] }).toExcept
      "IndentCorrection" with
  | .error invalid => throw (.invalid invalid)
  | .ok correction =>
    modify (·.correct key correction)
    return true

def located (tree : Tree) (number : Int) : Step tree.Id :=
  match tree.locate? number with
  | some i => pure i
  | none => throw .outside

namespace Operation

/-- Only recording has an answer. -/
def run (checker : Checker) : Operation → Step (Option Bool)
  | .record key observed expected => some <$> Check.record key observed expected
  | .check tree => do checker.check tree; return none
  | .braces tree number => do checker.checkBraces tree (← located tree number); return none
  | .member tree number required => do
    let i ← located tree number
    modify fun s => Checker.requireMember tree required s i
    return none
  | .body tree number position => do
    let i ← located tree number
    modify fun s => checker.checkBody tree i s position
    return none
  | .bodies tree number positions => do
    let i ← located tree number
    modify (checker.checkBodies tree i positions)
    return none
  | .multiples tree skipped => do modify (checker.checkMultiples tree skipped); return none
  | .apply rule tree number => do
    rule.apply checker tree (← located tree number)
    return none

end Operation
end Indentation.Check
