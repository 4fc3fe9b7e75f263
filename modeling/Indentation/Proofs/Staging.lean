import Indentation.Proofs.Accounting
import Indentation.Proofs.Circling

/-! The operations of a checker effect by effect: the line is flagged, then the finding is
reported, then the correction is recorded, one node after the other, and the rule for braces
looks for its anchor twice, once for the members and again, after they have been dealt with,
for the end of the body. The anchor does not depend on what has been recorded, and a
correction made of two columns is never refused. So whatever can stop an operation stops it
before its first effect. -/

namespace Indentation.Check

namespace Staged

def flagMember (line : Int) : Step Unit := modify fun s => { s with memberLines := s.memberLines ++ [line] }

def flagBody (line : Int) : Step Unit := modify fun s => { s with bodyLines := s.bodyLines ++ [line] }

def report (finding : Finding) : Step Unit := modify (·.report finding)

variable (checker : Checker) (tree : Tree)

def requireMember (required : Int) (i : tree.Id) : Step Unit := do
  let node := tree.node i
  if node.column = required then return
  flagMember node.line
  report ⟨node.line, node.column, .misplaced required⟩
  discard (record (.whole i.val) (.int node.column) (.int required))

def findAnchor (i : tree.Id) : Step tree.Id :=
  match tree.anchor i with
  | .ok anchor => pure anchor
  | .error lost => throw (.lost lost)

def checkMembers (i : tree.Id) : Step Unit := do
  let anchor ← findAnchor tree i
  let required := tree.indentOf (← get).corrections anchor + checker.options.step
  (tree.members i).forM (requireMember tree required)

def checkEnd (i last : tree.Id) : Step Unit := do
  let anchor ← findAnchor tree i
  let required := tree.indentOf (← get).corrections anchor
  let node := tree.node last
  if node.column = required then return
  flagMember node.line
  report ⟨node.line, node.column, .misplaced required⟩

def checkBraces (i : tree.Id) : Step Unit :=
  match tree.braces? i with
  | none => pure ()
  | some (first, last) =>
    if (tree.node first).line = (tree.node last).line then pure ()
    else do
      checkMembers checker tree i
      checkEnd tree i last

def checkBody (i : tree.Id) (position : Int) : Step Unit :=
  match Checker.child? tree i position with
  | none => pure ()
  | some body => do
    let node := tree.node body
    if Checker.hasOwnRule (Checker.controlledKind tree body) || node.line = (tree.node i).line then return
    let required := checker.requiredBody tree (← get) i
    if node.column = required then return
    flagBody node.line
    report ⟨node.line, node.column, .misplaced required⟩
    discard (record (.whole body.val) (.int node.column) (.int required))

def checkBodies (i : tree.Id) (positions : List Int) : Step Unit := positions.forM (checkBody checker tree i)

def checkTopLevel (i : tree.Id) : Step Unit :=
  ((tree.node i).children.filter fun c => (tree.node c).text ≠ "<EOF>").forM (requireMember tree 0)

def checkMultiples (skipped : List Int) : Step Unit := do
  (checker.unevenOutside tree skipped).forM report
  modify (·.note (.covered (Checker.coveredLines tree).length skipped.eraseDups.length))

def apply (i : tree.Id) : Rule → Step Unit
  | .braces => checkBraces checker tree i
  | .ifBodies => checkBodies checker tree i [checker.profile.ifThen, checker.profile.ifElse]
  | .whileBody => checkBody checker tree i checker.profile.whileBody
  | .doWhileBody => checkBody checker tree i checker.profile.doWhileBody
  | .forBody => checkBody checker tree i ((tree.node i).children.length - 1)
  | .topLevel => checkTopLevel tree i
  | .multiples => do checkMultiples checker tree (← get).flaggedLines

def visit (visit : tree.Visit) : Step Unit :=
  match Rule.of? visit.phase (tree.node visit.node).kind with
  | some rule => apply checker tree visit.node rule
  | none => pure ()

def check : Step Unit := do
  modify (·.note (.began tree.size))
  tree.walk.forM (visit checker tree)

end Staged

/-- An operation, effect by effect. -/
def Operation.staged (checker : Checker) : Operation → Step (Option Bool)
  | .record key observed expected => some <$> Check.record key observed expected
  | .check tree => do Staged.check checker tree; return none
  | .braces tree number => do Staged.checkBraces checker tree (← located tree number); return none
  | .member tree number required => do Staged.requireMember tree required (← located tree number); return none
  | .body tree number position => do Staged.checkBody checker tree (← located tree number) position; return none
  | .bodies tree number positions => do Staged.checkBodies checker tree (← located tree number) positions; return none
  | .multiples tree skipped => do Staged.checkMultiples checker tree skipped; return none
  | .apply rule tree number => do Staged.apply checker tree (← located tree number) rule; return none

namespace Staged

variable {checker : Checker} {tree : Tree}

theorem forM_eq {α : Type} {step : α → Step Unit} {f : State → α → State}
    (each : ∀ a, step a = modify fun s => f s a) (items : List α) :
    items.forM step = modify fun s => items.foldl f s := by
  induction items with
  | nil => rfl
  | cons item rest ih =>
    change (step item >>= fun _ => rest.forM step) = _
    rw [each, ih]
    rfl

theorem record_columns (key : Key) (observed expected : Int) (s : State) :
    ∃ answer, record key (.int observed) (.int expected) s = .ok answer (s.correct key ⟨observed, expected⟩) := by
  rw [record_eq]
  by_cases known : Table.has s.corrections key = true
  · refine ⟨false, ?_⟩
    rw [if_pos known]
    simp [State.correct, Corrections.record, known]
  · exact ⟨true, by rw [if_neg known]; rfl⟩

theorem discard_record (key : Key) (observed expected : Int) :
    discard (record key (.int observed) (.int expected)) = modify fun s => s.correct key ⟨observed, expected⟩ := by
  funext s
  obtain ⟨answer, recorded⟩ := record_columns key observed expected s
  simp only [discard, Functor.mapConst, EStateM.map, Function.comp, recorded]
  rfl

theorem requireMember_eq (required : Int) (i : tree.Id) :
    requireMember tree required i = modify fun s => Checker.requireMember tree required s i := by
  unfold requireMember Checker.requireMember
  dsimp only
  rw [discard_record]
  split
  next => rfl
  next => rfl

theorem findAnchor_of_found {i anchor : tree.Id} (found : tree.anchor i = .ok anchor) :
    findAnchor tree i = pure anchor := by
  rw [findAnchor, found]

theorem checkMembers_eq {i anchor : tree.Id} (found : tree.anchor i = .ok anchor) :
    checkMembers checker tree i = modify (checker.checkMembers tree anchor i) := by
  unfold checkMembers
  rw [findAnchor_of_found found]
  simp only [forM_eq (requireMember_eq _)]
  rfl

theorem checkEnd_eq {i anchor : tree.Id} (found : tree.anchor i = .ok anchor) (last : tree.Id) :
    checkEnd tree i last = modify (Checker.checkEnd tree anchor last) := by
  unfold checkEnd
  rw [findAnchor_of_found found]
  funext s
  change (if (tree.node last).column = tree.indentOf s.corrections anchor then (pure () : Step Unit) else _) s =
    .ok () (Checker.checkEnd tree anchor last s)
  unfold Checker.checkEnd
  dsimp only
  split
  next => rfl
  next => rfl

/-- The second search for the anchor finds what the first has found. -/
theorem checkBraces_eq (checker : Checker) (i : tree.Id) : checkBraces checker tree i = checker.checkBraces tree i := by
  unfold checkBraces Checker.checkBraces
  cases tree.braces? i with
  | none => rfl
  | some ends =>
    obtain ⟨first, last⟩ := ends
    dsimp only
    split
    next => rfl
    next =>
      cases found : tree.anchor i with
      | error lost =>
        have stopped : checkMembers checker tree i = throw (.lost lost) := by
          unfold checkMembers findAnchor
          rw [found]
          rfl
        rw [stopped]
        rfl
      | ok anchor =>
        rw [checkMembers_eq found, checkEnd_eq found]
        rfl

theorem checkBody_eq (checker : Checker) (i : tree.Id) (position : Int) :
    checkBody checker tree i position = modify fun s => checker.checkBody tree i s position := by
  unfold checkBody Checker.checkBody
  cases Checker.child? tree i position with
  | none => rfl
  | some body =>
    dsimp only
    split
    next => rfl
    next =>
      funext s
      simp only [discard_record]
      change (if (tree.node body).column = checker.requiredBody tree s i then (pure () : Step Unit) else _) s =
        .ok () (if (tree.node body).column = checker.requiredBody tree s i then s else _)
      split
      next => rfl
      next => rfl

theorem checkBodies_eq (checker : Checker) (i : tree.Id) (positions : List Int) :
    checkBodies checker tree i positions = modify (checker.checkBodies tree i positions) :=
  forM_eq (checkBody_eq checker i) positions

theorem checkTopLevel_eq (i : tree.Id) : checkTopLevel tree i = modify (Checker.checkTopLevel tree i) :=
  forM_eq (requireMember_eq 0) _

theorem checkMultiples_eq (checker : Checker) (tree : Tree) (skipped : List Int) :
    checkMultiples checker tree skipped = modify (checker.checkMultiples tree skipped) := by
  have reports : ∀ findings : List Finding, findings.forM report = modify fun s => findings.foldl State.report s :=
    forM_eq fun _ => rfl
  unfold checkMultiples
  rw [reports]
  rfl

theorem apply_eq (checker : Checker) (i : tree.Id) (rule : Rule) :
    apply checker tree i rule = rule.apply checker tree i := by
  cases rule with
  | braces => exact checkBraces_eq checker i
  | ifBodies => exact checkBodies_eq checker i _
  | whileBody => exact checkBody_eq checker i _
  | doWhileBody => exact checkBody_eq checker i _
  | forBody => exact checkBody_eq checker i _
  | topLevel => exact checkTopLevel_eq i
  | multiples =>
    unfold apply
    simp only [checkMultiples_eq]
    rfl

theorem visit_eq (checker : Checker) (tree : Tree) : visit checker tree = checker.visit tree := by
  funext visit
  unfold Staged.visit Checker.visit
  cases Rule.of? visit.phase (tree.node visit.node).kind with
  | some rule => exact apply_eq checker visit.node rule
  | none => rfl

theorem check_eq (checker : Checker) (tree : Tree) : check checker tree = checker.check tree := by
  rw [check, Checker.check, visit_eq]

end Staged

/-- Effect by effect or in one go, an operation ends in the same state. -/
theorem Operation.staged_eq (checker : Checker) (operation : Operation) :
    operation.staged checker = operation.run checker := by
  cases operation with
  | record key observed expected => rfl
  | check tree => simp only [staged, run, Staged.check_eq]
  | braces tree number => simp only [staged, run, Staged.checkBraces_eq]
  | member tree number required => simp only [staged, run, Staged.requireMember_eq]
  | body tree number position => simp only [staged, run, Staged.checkBody_eq]
  | bodies tree number positions => simp only [staged, run, Staged.checkBodies_eq]
  | multiples tree skipped => simp only [staged, run, Staged.checkMultiples_eq]
  | apply rule tree number => simp only [staged, run, Staged.apply_eq]

/-- The tree and the number of the node that an operation is asked to look at. -/
def Operation.target? : Operation → Option (Tree × Int)
  | .record .. | .check _ | .multiples .. => none
  | .braces tree number | .member tree number _ | .body tree number _ | .bodies tree number _
  | .apply _ tree number => some (tree, number)

/-- What stops an operation. -/
inductive Operation.Stops : Operation → Fault → Prop where
  | outside {operation : Operation} {tree : Tree} {number : Int} (asked : operation.target? = some (tree, number))
      (missing : tree.locate? number = none) : Stops operation .outside
  | unlisted {operation : Operation} {tree : Tree} {number : Int} {i k p : tree.Id}
      (asked : operation.target? = some (tree, number)) (here : tree.locate? number = some i)
      (lost : tree.anchor i = .error (.unlisted k.val)) (named : (tree.node k).parent = some p)
      (missing : k ∉ (tree.node p).children) : Stops operation (.lost (.unlisted k.val))
  | endless {operation : Operation} {tree : Tree} {number : Int} {i : tree.Id}
      (asked : operation.target? = some (tree, number)) (here : tree.locate? number = some i)
      (lost : tree.anchor i = .error .circular) : Stops operation (.lost .circular)
  | refused {key : Key} {observed expected : Value} {refusals : Schema.Invalid}
      (read : (Correction.read { fields := [("observed", observed), ("expected", expected)] }).toExcept
        "IndentCorrection" = .error refusals) : Stops (.record key observed expected) (.invalid refusals)

section Stopping

variable {checker : Checker} {tree : Tree} {s next : State} {fault : Fault}

theorem stopped_of_located {number : Int} {step : tree.Id → Step Unit}
    (failed : (do let i ← located tree number; step i; return (none : Option Bool)) s = .error fault next) :
    (tree.locate? number = none ∧ fault = .outside ∧ next = s) ∨
      ∃ i, tree.locate? number = some i ∧ step i s = .error fault next := by
  unfold located at failed
  cases here : tree.locate? number with
  | none =>
    rw [here] at failed
    cases failed
    exact .inl ⟨rfl, rfl, rfl⟩
  | some i =>
    rw [here] at failed
    refine .inr ⟨i, rfl, ?_⟩
    change (step i >>= fun _ => pure none) s = _ at failed
    simp only [bind, EStateM.bind] at failed
    cases ran : step i s with
    | ok _ middle =>
      rw [ran] at failed
      cases failed
    | error _ _ =>
      rw [ran] at failed
      cases failed
      rfl

theorem stopped_of_checkBraces {i : tree.Id} (failed : checker.checkBraces tree i s = .error fault next) :
    next = s ∧ ∃ lost, tree.anchor i = .error lost ∧ fault = .lost lost := by
  cases found : tree.anchor i with
  | ok anchor => cases (checker.checkBraces_eq found s).symm.trans failed
  | error lost =>
    unfold Checker.checkBraces at failed
    cases ends : tree.braces? i with
    | none =>
      rw [ends] at failed
      cases failed
    | some pair =>
      rw [ends, found] at failed
      dsimp only at failed
      split at failed
      next => cases failed
      next =>
        cases failed
        exact ⟨rfl, lost, rfl, rfl⟩

theorem stopped_of_apply {rule : Rule} {i : tree.Id} (failed : rule.apply checker tree i s = .error fault next) :
    next = s ∧ ∃ lost, tree.anchor i = .error lost ∧ fault = .lost lost := by
  cases rule with
  | braces => exact stopped_of_checkBraces failed
  | ifBodies | whileBody | doWhileBody | forBody | topLevel | multiples => cases failed

theorem Operation.stops_of_lost {operation : Operation} {number : Int} {i : tree.Id} {lost : Tree.Lost}
    (asked : operation.target? = some (tree, number)) (here : tree.locate? number = some i)
    (found : tree.anchor i = .error lost) : operation.Stops (.lost lost) := by
  by_cases circle : lost = .circular
  · subst circle
    exact .endless asked here found
  · have searches : Tree.Searches tree tree.size i (.error lost) :=
      Tree.searches_iff.2 ⟨found, fun same => circle (Except.error.inj same)⟩
    obtain ⟨k, p, rfl, named, missing⟩ := searches.unlisted
    exact .unlisted asked here found named missing

theorem Operation.stopped {operation : Operation} (failed : operation.run checker s = .error fault next) :
    next = s ∧ operation.Stops fault := by
  cases operation with
  | record key observed expected =>
    simp only [run, Functor.map, EStateM.map, record_eq] at failed
    by_cases known : Table.has s.corrections key = true
    · rw [if_pos known] at failed
      cases failed
    · rw [if_neg known] at failed
      cases read : (Correction.read { fields := [("observed", observed), ("expected", expected)] }).toExcept
          "IndentCorrection" with
      | ok correction =>
        rw [read] at failed
        cases failed
      | error refusals =>
        rw [read] at failed
        cases failed
        exact ⟨rfl, .refused read⟩
  | check tree =>
    simp only [run, bind, EStateM.bind, checker.check_eq tree s] at failed
    cases failed
  | multiples tree skipped => cases failed
  | braces tree number =>
    rcases stopped_of_located failed with ⟨missing, rfl, same⟩ | ⟨i, here, failed⟩
    · exact ⟨same, .outside rfl missing⟩
    · obtain ⟨same, lost, found, rfl⟩ := stopped_of_checkBraces failed
      exact ⟨same, stops_of_lost rfl here found⟩
  | apply rule tree number =>
    rcases stopped_of_located failed with ⟨missing, rfl, same⟩ | ⟨i, here, failed⟩
    · exact ⟨same, .outside rfl missing⟩
    · obtain ⟨same, lost, found, rfl⟩ := stopped_of_apply failed
      exact ⟨same, stops_of_lost rfl here found⟩
  | member tree number _ | body tree number _ | bodies tree number _ =>
    rcases stopped_of_located failed with ⟨missing, rfl, same⟩ | ⟨i, here, failed⟩
    · exact ⟨same, .outside rfl missing⟩
    · cases failed

end Stopping

/-- Effect by effect an operation is what it is in one go; and if it is stopped, it ends in the
state in which it began: nothing has been reported, flagged or corrected. It was asked for a
node that is not there, or its search for an anchor came to a node that the parent does not
list or to a circle, or it was to record what is no correction. -/
theorem stopped_operation_changes_nothing (checker : Checker) (operation : Operation) :
    operation.staged checker = operation.run checker ∧
      ∀ s fault next, operation.staged checker s = .error fault next → next = s ∧ operation.Stops fault := by
  refine ⟨operation.staged_eq checker, ?_⟩
  intro s fault next failed
  rw [Operation.staged_eq] at failed
  exact Operation.stopped failed

/-- A body in braces that its parent does not list. -/
def adrift : List Entry :=
  [ { index := 0, kind := .sourceUnit, line := 1, column := 0, stopLine := 1 },
    { index := 1, kind := .block, parent := some 0, children := [2, 3], line := 2, column := 1, stopLine := 3 },
    { index := 2, kind := .terminal, parent := some 1, line := 2, column := 1, stopLine := 2, text := "\x7b" },
    { index := 3, kind := .terminal, parent := some 1, line := 3, column := 0, stopLine := 3, text := "\x7d" } ]

def adriftTree : Tree :=
  (Tree.ofEntries adrift none).toOption.get (by decide +kernel)

theorem stopped_operation_changes_nothing_adrift :
    ∃ s next : State, s = (Checker.mk .fallback {}).outcome [.member adriftTree 1 4] ∧ s.findings.length = 1 ∧
      (Operation.braces adriftTree 1).staged (.mk .fallback {}) s = .error (.lost (.unlisted 1)) next ∧ next = s := by
  have failed : (Operation.braces adriftTree 1).staged (.mk .fallback {})
      ((Checker.mk .fallback {}).outcome [.member adriftTree 1 4]) =
        .error (.lost (.unlisted 1)) ((Checker.mk .fallback {}).outcome [.member adriftTree 1 4]) := by
    rfl
  refine ⟨_, _, rfl, by decide +kernel, failed, ?_⟩
  exact ((stopped_operation_changes_nothing _ _).2 _ _ _ failed).1

end Indentation.Check
