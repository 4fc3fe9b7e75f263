import Indentation.Check.State
import Indentation.Tree.Braces
import Indentation.Tree.Walk

/-! The rules of indentation and the visits that call for them. The nested elements of a block
stand one step in from the correct indent of the first node of its line, and its end bracket
stands at that indent. An unbraced body of an if, a while, a do-while or a for stands one step
in from the correct indent of the parent of the construct. Top-level nodes stand in column
zero. A node that does not is reported, and a correction is recorded for it. When a source
unit is left, the base indent check wants every line without an error to start on a multiple
of the step. -/

namespace Indentation.Check

structure Checker where
  options : Options
  profile : Profile

/-- Why a rule cannot be applied. -/
inductive Fault where
  | outside
  /-- A value of the wrong sort. -/
  | wrongSort
  | noRule
  | lost (lost : Tree.Lost)
  | invalid (report : Schema.Invalid)
  deriving DecidableEq, Repr

/-- What happened before a fault stays. -/
abbrev Step := EStateM Fault State

namespace Checker

variable (checker : Checker) (tree : Tree)

/-- One nested element or top-level node against the column it is required in. -/
def requireMember (required : Int) (s : State) (i : tree.Id) : State :=
  let node := tree.node i
  if node.column = required then s
  else (s.misplaceMember node.line node.column required).correct (.whole i.val) ⟨node.column, required⟩

/-- The nested elements of a block. -/
def checkMembers (anchor i : tree.Id) (s : State) : State :=
  let required := tree.indentOf s.corrections anchor + checker.options.step
  (tree.members i).foldl (requireMember tree required) s

/-- The end bracket is reported, and no correction is recorded for it. -/
def checkEnd (anchor last : tree.Id) (s : State) : State :=
  let required := tree.indentOf s.corrections anchor
  let node := tree.node last
  if node.column = required then s else s.misplaceMember node.line node.column required

/-- A node without an opening brace, or with its brackets on one line, is exempt. -/
def checkBraces (i : tree.Id) : Step Unit :=
  match tree.braces? i with
  | none => pure ()
  | some (first, last) =>
    if (tree.node first).line = (tree.node last).line then pure ()
    else
      match tree.anchor i with
      | .error lost => throw (.lost lost)
      | .ok anchor => modify fun s => checkEnd tree anchor last (checkMembers checker tree anchor i s)

/-- The controlled kind: a statement goes by the kind of its first child. -/
def controlledKind (i : tree.Id) : Kind :=
  let node := tree.node i
  match node.kind, node.children with
  | .statement, first :: _ => (tree.node first).kind
  | kind, _ => kind

/-- The self-validated kinds. Blocks answer to the rule for braces, and an if in a chain to the
rule for its own bodies. -/
def hasOwnRule (kind : Kind) : Bool := kind = .block || kind = .ifStatement

def child? (i : tree.Id) (position : Int) : Option tree.Id :=
  if position < 0 then none else (tree.node i).children[position.toNat]?

def requiredBody (s : State) (i : tree.Id) : Int :=
  let base :=
    match (tree.node i).parent with
    | none => 0
    | some parent => tree.indentOf s.corrections parent
  base + checker.options.step

/-- An unbraced body on the line of its construct is exempt. -/
def checkBody (i : tree.Id) (s : State) (position : Int) : State :=
  match child? tree i position with
  | none => s
  | some body =>
    let node := tree.node body
    if hasOwnRule (controlledKind tree body) || node.line = (tree.node i).line then s
    else
      let required := requiredBody checker tree s i
      if node.column = required then s
      else (s.misplaceBody node.line node.column required).correct (.whole body.val) ⟨node.column, required⟩

def checkBodies (i : tree.Id) (positions : List Int) (s : State) : State :=
  positions.foldl (checkBody checker tree i) s

/-- The end of the file may stand anywhere. -/
def checkTopLevel (i : tree.Id) (s : State) : State :=
  ((tree.node i).children.filter fun c => (tree.node c).text ≠ "<EOF>").foldl (requireMember tree 0) s

/-- The lines on which something significant stands, in order. -/
def coveredLines : List Int :=
  ((tree.tokens.filter Token.isSignificant).map (·.line)).eraseDups.mergeSort fun a b => a ≤ b

/-- The first indent of a line: the least column of its significant tokens. -/
def startOf (line : Int) : Option Int :=
  ((tree.tokens.filter fun t => t.isSignificant && t.line = line).map (·.column)).min?

/-- The finding of the base indent check for a line, if the line starts between two steps. -/
def unevenLine? (line : Int) : Option Finding :=
  match startOf tree line with
  | none => none
  | some column =>
    if column % checker.options.step = 0 then none else some ⟨line, column, .uneven⟩

def checkMultiples (skipped : List Int) (s : State) : State :=
  let lines := coveredLines tree
  let findings := (lines.filter fun line => !skipped.contains line).filterMap (unevenLine? checker tree)
  (findings.foldl State.report s).note (.covered lines.length skipped.eraseDups.length)

end Checker

inductive Rule where
  | braces
  | ifBodies
  | whileBody
  | doWhileBody
  | forBody
  | topLevel
  | multiples
  deriving DecidableEq, Repr

namespace Rule

def of? : Phase → Kind → Option Rule
  | .enter, .block | .enter, .contractDefinition | .enter, .structDefinition
  | .enter, .enumDefinition | .enter, .importDirective | .enter, .functionCallArguments =>
    some .braces
  | .enter, .ifStatement => some .ifBodies
  | .enter, .whileStatement => some .whileBody
  | .enter, .doWhileStatement => some .doWhileBody
  | .enter, .forStatement => some .forBody
  | .enter, .sourceUnit => some .topLevel
  | .exit, .sourceUnit => some .multiples
  | _, _ => none

/-- The rule for a visit, by the names of its phase and its kind. -/
def named? (name : String) : Option Rule :=
  [Phase.enter, .exit].findSome? fun phase =>
    Kind.choices.findSome? fun (kindName, kind) =>
      if phase.name ++ "_" ++ kindName = name then of? phase kind else none

variable (checker : Checker) (tree : Tree) (i : tree.Id)

def apply : Rule → Step Unit
  | .braces => checker.checkBraces tree i
  | .ifBodies =>
    modify (checker.checkBodies tree i [checker.profile.ifThen, checker.profile.ifElse])
  | .whileBody => modify (checker.checkBodies tree i [checker.profile.whileBody])
  | .doWhileBody => modify (checker.checkBodies tree i [checker.profile.doWhileBody])
  | .forBody => modify (checker.checkBodies tree i [(tree.node i).children.length - 1])
  | .topLevel => modify (Checker.checkTopLevel tree i)
  | .multiples => modify fun s => checker.checkMultiples tree s.flaggedLines s

end Rule
end Indentation.Check
