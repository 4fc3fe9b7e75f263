import Indentation.Check.Run

/-! Operations of a checker that are asked for with dynamic values. Whole numbers make plain
operations; what other values do is said here. A value of the wrong sort stops a call, and
what the call did before stays. -/

namespace Indentation.Check

inductive Call where
  | record (index observed expected : Value)
  | check (tree : Tree)
  | braces (tree : Tree) (index : Value)
  | member (tree : Tree) (index required : Value)
  | body (tree : Tree) (index position : Value)
  | bodies (tree : Tree) (index positions : Value)
  | multiples (tree : Tree) (lines : Value)
  | apply (rule : Rule) (tree : Tree) (index : Value)
  /-- A part of the checker that is no rule, asked for as if it were one. -/
  | misapply (tree : Tree) (index : Value)
  | unknown

namespace Call

def number? : Value → Option Int
  | .int n => some n
  | .bool b => some (if b then 1 else 0)
  | _ => none

private def number (v : Value) : Step Int := (number? v).elim (throw .wrongSort) pure

private def node (tree : Tree) (index : Value) : Step tree.Id := do located tree (← number index)

variable (checker : Checker) (tree : Tree) (i : tree.Id)

/-- A column given by a number that is not plainly written, or by no number at all. It is
compared and reported as it is, and the correction has to be acceptable. -/
private def requireLike (required : Value) : Step Unit := do
  let node := tree.node i
  if required.key? = some (.whole node.column) then return
  modify fun s => { s with memberLines := s.memberLines ++ [node.line] }.report
    ⟨node.line, node.column, .unlike required.display⟩
  discard (Check.record (.whole i.val) (.int node.column) required)

/-- Only a float that no child stands at is passed over. -/
private def bodyAt (position : Value) : Step Unit :=
  match number? position, position with
  | some n, _ => modify fun s => checker.checkBody tree i s n
  | none, .float d =>
    if d.isBelow 0 || d.isFrom (tree.node i).children.length then pure () else throw .wrongSort
  | none, _ => throw .wrongSort

private def itemsOf (v : Value) : Step (List Value) := v.items?.elim (throw .wrongSort) pure

/-- Lines may be given by any keys, of which those that are whole numbers count. -/
private def linesOf (v : Value) : Step (List Int) := do
  let keys ← (← itemsOf v).mapM fun item => item.key?.elim (throw .wrongSort) pure
  return keys.filterMap fun key => match key with | .number n 1 => some n | _ => none

/-- Records under any key. -/
def store (index observed expected : Value) : Step Bool := do
  Check.record (← index.key?.elim (throw .wrongSort) pure) observed expected

def run : Call → Step (Option Bool)
  | .record index observed expected => some <$> store index observed expected
  | .check tree => do checker.check tree; return none
  | .braces tree index => do (Operation.braces tree (← number index)).run checker
  | .member tree index (.int required) => do (Operation.member tree (← number index) required).run checker
  | .member tree index required => do requireLike tree (← node tree index) required; return none
  | .body tree index position => do bodyAt checker tree (← node tree index) position; return none
  | .bodies tree index positions => do
    let i ← node tree index
    (← itemsOf positions).forM (bodyAt checker tree i)
    return none
  | .multiples tree lines => do (Operation.multiples tree (← linesOf lines)).run checker
  | .apply rule tree index => do (Operation.apply rule tree (← number index)).run checker
  | .misapply tree index => do discard (node tree index); throw .wrongSort
  | .unknown => throw .noRule

end Call
end Indentation.Check
