import Indentation.Proofs.Accounting
import Indentation.Proofs.Shift

/-! A wider layout of the same text. Lines are moved apart without changing their order, as
blank lines do, and all columns are multiplied by one factor. A checker whose step has grown
by that factor makes the same visits on the wider tree, reads off it the same anchors, and
multiplies every column that it asks for. So its state is at all times the old one, widened
in the same way. -/

namespace Indentation

/-- Where lines go, and how much wider columns become. -/
structure Stretch where
  line : Int → Int
  factor : Int
  rising : ∀ {a b : Int}, a < b → line a < line b
  positive : 0 < factor

namespace Stretch

variable (w : Stretch)

/-- The new column does not depend on the line. -/
def column (_ column : Int) : Int := w.factor * column

theorem line_lt_iff {a b : Int} : w.line a < w.line b ↔ a < b := by
  refine ⟨?_, w.rising⟩
  intro less
  rcases Int.lt_trichotomy a b with below | rfl | above
  · exact below
  · exact absurd less (Int.lt_irrefl _)
  · exact absurd (w.rising above) (Int.lt_asymm less)

theorem line_le_iff {a b : Int} : w.line a ≤ w.line b ↔ a ≤ b := by
  rw [← Int.not_lt, ← Int.not_lt, w.line_lt_iff]

theorem line_injective : Function.Injective w.line := by
  intro a b same
  exact Int.le_antisymm (w.line_le_iff.1 (Int.le_of_eq same)) (w.line_le_iff.1 (Int.le_of_eq same.symm))

theorem factor_mul_inj {a b : Int} : w.factor * a = w.factor * b ↔ a = b :=
  Int.mul_eq_mul_left_iff (Int.ne_of_gt w.positive)

end Stretch

variable (w : Stretch)

theorem Token.before_stretched (a b : Token) :
    (a.relaid w.line w.column).before (b.relaid w.line w.column) = a.before b := by
  have columns : w.factor * a.column ≤ w.factor * b.column ↔ a.column ≤ b.column :=
    Int.mul_le_mul_left w.positive
  simp only [Token.before, Token.relaid, Stretch.column, w.line_lt_iff, w.line_injective.eq_iff, columns]

/-- The tokens move with the nodes. -/
abbrev Tree.stretched (tree : Tree) : Tree :=
  tree.relaid w.line w.column (tree.tokens.map (Token.relaid w.line w.column))

def Correction.stretched (c : Correction) : Correction := ⟨w.factor * c.observed, w.factor * c.expected⟩

theorem Correction.reproject_stretched (c : Correction) (column : Int) :
    (c.stretched w).reproject (w.factor * column) = w.factor * c.reproject column := by
  unfold Correction.reproject Correction.stretched
  rw [Int.mul_add, Int.mul_sub]

namespace Corrections

def stretched (table : Corrections) : Corrections := table.map fun entry => (entry.1, entry.2.stretched w)

theorem find?_stretched (table : Corrections) (key : Key) :
    Table.find? (stretched w table) key = (Table.find? table key).map (Correction.stretched w) := by
  induction table with
  | nil => rfl
  | cons entry rest ih =>
    obtain ⟨other, correction⟩ := entry
    by_cases same : other = key
    · simp [stretched, Table.find?, same]
    · simpa [stretched, Table.find?, same] using ih

theorem record_stretched (table : Corrections) (key : Key) (correction : Correction) :
    record (stretched w table) key (correction.stretched w) = stretched w (record table key correction) := by
  unfold record Table.has
  rw [find?_stretched, Option.isSome_map]
  cases known : Table.find? table key with
  | some old => rfl
  | none =>
    have missing : Table.find? (stretched w table) key = none := by rw [find?_stretched, known, Option.map_none]
    simp only [Option.isSome_none, Bool.false_eq_true, ↓reduceIte, Table.put_of_find?_eq_none _ known,
      Table.put_of_find?_eq_none _ missing]
    simp [stretched]

end Corrections

namespace Tree

variable {w} {tree : Tree} (table : Corrections)

theorem correctionWithin_stretched (line : Int) (fuel : Nat) (i : tree.Id) :
    (tree.stretched w).correctionWithin (Corrections.stretched w table) (w.line line) fuel i =
      (tree.correctionWithin table line fuel i).map (Correction.stretched w) := by
  induction fuel generalizing i with
  | zero => rfl
  | succ fuel ih =>
    rw [correctionWithin, correctionWithin, Corrections.of?, Corrections.find?_stretched, ← Corrections.of?]
    cases Corrections.of? table i.val with
    | some correction => rfl
    | none =>
      dsimp only [Option.map_none, Node.relaid]
      cases (tree.node i).parent with
      | none => rfl
      | some p =>
        dsimp only
        rw [apply_ite (Option.map (Correction.stretched w))]
        -- The climb goes on while the line stays the same, and lines are not joined.
        exact if_congr w.line_injective.eq_iff (ih p) rfl

theorem indentOf_stretched (i : tree.Id) :
    (tree.stretched w).indentOf (Corrections.stretched w table) i = w.factor * tree.indentOf table i := by
  have found := correctionWithin_stretched (w := w) table (tree.node i).line tree.size i
  unfold indentOf
  dsimp only [Node.relaid]
  rw [found]
  cases tree.correctionWithin table (tree.node i).line tree.size i with
  | none => rfl
  | some correction => exact correction.reproject_stretched w _

end Tree

def Finding.stretched (finding : Finding) : Finding where
  line := w.line finding.line
  column := w.factor * finding.column
  cause :=
    match finding.cause with
    | .misplaced required => .misplaced (w.factor * required)
    | cause => cause

namespace Check

def Note.stretched : Note → Note
  | .found finding => .found (finding.stretched w)
  | note => note

namespace State

def stretched (s : State) : State where
  corrections := Corrections.stretched w s.corrections
  bodyLines := s.bodyLines.map w.line
  memberLines := s.memberLines.map w.line
  findings := s.findings.map (Finding.stretched w)
  notes := s.notes.map (Note.stretched w)

variable (s : State)

theorem stretched_note (note : Note) : (s.stretched w).note (note.stretched w) = (s.note note).stretched w := by
  simp [State.note, State.stretched]

theorem stretched_report (finding : Finding) :
    (s.stretched w).report (finding.stretched w) = (s.report finding).stretched w := by
  simp [State.report, State.stretched, Note.stretched]

theorem stretched_misplaceMember (line column required : Int) :
    (s.stretched w).misplaceMember (w.line line) (w.factor * column) (w.factor * required) =
      (s.misplaceMember line column required).stretched w := by
  simp [State.misplaceMember, State.report, State.stretched, Note.stretched, Finding.stretched]

theorem stretched_misplaceBody (line column required : Int) :
    (s.stretched w).misplaceBody (w.line line) (w.factor * column) (w.factor * required) =
      (s.misplaceBody line column required).stretched w := by
  simp [State.misplaceBody, State.report, State.stretched, Note.stretched, Finding.stretched]

theorem stretched_correct (key : Key) (observed expected : Int) :
    (s.stretched w).correct key ⟨w.factor * observed, w.factor * expected⟩ =
      (s.correct key ⟨observed, expected⟩).stretched w := by
  have recorded := Corrections.record_stretched w s.corrections key ⟨observed, expected⟩
  simp only [State.correct, State.stretched, ← recorded]
  rfl

end State

namespace Checker

variable {w} {tree : Tree} {s : State}

theorem requireMember_stretched (required : Int) (s : State) (i : tree.Id) :
    requireMember (tree.stretched w) (w.factor * required) (s.stretched w) i =
      (requireMember tree required s i).stretched w := by
  unfold requireMember
  dsimp only [Node.relaid, Stretch.column]
  rw [State.stretched_misplaceMember, State.stretched_correct]
  rw [apply_ite (State.stretched w)]
  exact if_congr w.factor_mul_inj rfl rfl

theorem requireMembers_stretched (required : Int) (ids : List tree.Id) (s : State) :
    ids.foldl (requireMember (tree.stretched w) (w.factor * required)) (s.stretched w) =
      (ids.foldl (requireMember tree required) s).stretched w :=
  List.foldl_hom (State.stretched w) fun s (i : tree.Id) => requireMember_stretched required s i

theorem checkEnd_stretched (anchor last : tree.Id) :
    checkEnd (tree.stretched w) anchor last (s.stretched w) = (checkEnd tree anchor last s).stretched w := by
  have belongs : (tree.stretched w).indentOf (s.stretched w).corrections anchor =
      w.factor * tree.indentOf s.corrections anchor := Tree.indentOf_stretched s.corrections anchor
  unfold checkEnd
  dsimp only [Node.relaid, Stretch.column]
  rw [belongs, State.stretched_misplaceMember]
  rw [apply_ite (State.stretched w)]
  exact if_congr w.factor_mul_inj rfl rfl

theorem checkTopLevel_stretched (i : tree.Id) :
    checkTopLevel (tree.stretched w) i (s.stretched w) = (checkTopLevel tree i s).stretched w := by
  -- The margin is the only column that a rule names by itself, and no factor moves it.
  have zero : requireMember (tree.stretched w) 0 = requireMember (tree.stretched w) (w.factor * 0) := by
    rw [Int.mul_zero]
  unfold checkTopLevel
  rw [zero]
  exact requireMembers_stretched 0 _ s

/-- The step of the second checker is wider by the factor. -/
structure Widened (w : Stretch) (checker wide : Checker) : Prop where
  profile : wide.profile = checker.profile
  step : wide.options.step = w.factor * checker.options.step

variable {checker wide : Checker} (widened : Widened w checker wide)
include widened

theorem checkMembers_stretched (anchor i : tree.Id) :
    wide.checkMembers (tree.stretched w) anchor i (s.stretched w) =
      (checker.checkMembers tree anchor i s).stretched w := by
  have belongs : (tree.stretched w).indentOf (s.stretched w).corrections anchor =
      w.factor * tree.indentOf s.corrections anchor := Tree.indentOf_stretched s.corrections anchor
  unfold checkMembers
  dsimp only
  rw [belongs, widened.step, ← Int.mul_add, Tree.members_relaid]
  exact requireMembers_stretched _ _ s

theorem requiredBody_stretched (i : tree.Id) :
    wide.requiredBody (tree.stretched w) (s.stretched w) i = w.factor * checker.requiredBody tree s i := by
  unfold requiredBody
  rw [widened.step, Int.mul_add]
  dsimp only [Node.relaid]
  cases (tree.node i).parent with
  | none => rw [Int.mul_zero]
  | some p => exact congrArg (· + w.factor * checker.options.step) (Tree.indentOf_stretched s.corrections p)

theorem checkBody_stretched (i : tree.Id) (s : State) (position : Int) :
    wide.checkBody (tree.stretched w) i (s.stretched w) position =
      (checker.checkBody tree i s position).stretched w := by
  have same : child? (tree.stretched w) i position = child? tree i position := rfl
  unfold checkBody
  rw [same]
  cases child? tree i position with
  | none => rfl
  | some body =>
    dsimp only
    rw [controlledKind_relaid, requiredBody_stretched widened]
    dsimp only [Node.relaid, Stretch.column]
    rw [State.stretched_misplaceBody, State.stretched_correct]
    simp only [w.line_injective.eq_iff, w.factor_mul_inj, apply_ite (State.stretched w)]

theorem checkBodies_stretched (i : tree.Id) (positions : List Int) :
    wide.checkBodies (tree.stretched w) i positions (s.stretched w) =
      (checker.checkBodies tree i positions s).stretched w :=
  List.foldl_hom (State.stretched w) (checkBody_stretched widened i)

theorem checkBraces_stretched (i : tree.Id) :
    (wide.checkBraces (tree.stretched w) i).ends (s.stretched w) = ((checker.checkBraces tree i).ends s).stretched w := by
  have braced : (tree.stretched w).braces? i = tree.braces? i := rfl
  unfold checkBraces Step.ends
  rw [braced, Tree.anchor_relaid w.line_injective]
  cases tree.braces? i with
  | none => rfl
  | some ends =>
    obtain ⟨first, last⟩ := ends
    dsimp only [Node.relaid]
    by_cases same : (tree.node first).line = (tree.node last).line
    · simp only [same, ↓reduceIte]
      rfl
    · simp only [w.line_injective.eq_iff, same, ↓reduceIte]
      cases tree.anchor i with
      | error lost => rfl
      | ok anchor =>
        have members := checkMembers_stretched widened (s := s) anchor i
        have ended := checkEnd_stretched (w := w) (s := checker.checkMembers tree anchor i s) anchor last
        rw [← members] at ended
        exact ended

section Multiples

omit widened

private theorem eraseDups_map {f : Int → Int} (injective : Function.Injective f) (lines : List Int) :
    (lines.map f).eraseDups = lines.eraseDups.map f := by
  cases lines with
  | nil => rfl
  | cons line rest =>
    have others : (rest.map f).filter (fun other => !other == f line) =
        (rest.filter fun other => !other == line).map f := by
      rw [List.filter_map]
      apply congrArg
      apply List.filter_congr
      intro other _
      simp [injective.eq_iff]
    rw [List.map_cons, List.eraseDups_cons, List.eraseDups_cons, List.map_cons, others,
      eraseDups_map injective (rest.filter fun other => !other == line)]
termination_by lines.length
decreasing_by exact Nat.lt_succ_of_le (List.length_filter_le _ rest)

theorem coveredLines_stretched (tree : Tree) : coveredLines (tree.stretched w) = (coveredLines tree).map w.line := by
  have lines : ((tree.tokens.map (Token.relaid w.line w.column)).filter Token.isSignificant).map (·.line) =
      ((tree.tokens.filter Token.isSignificant).map (·.line)).map w.line := by
    rw [List.filter_map, List.map_map, List.map_map]
    rfl
  unfold coveredLines
  rw [lines, eraseDups_map w.line_injective, List.map_mergeSort]
  intro a _ b _
  exact decide_eq_decide.2 w.line_le_iff.symm

private theorem min?_map_mul {factor : Int} (positive : 0 < factor) (columns : List Int) :
    (columns.map (factor * ·)).min? = columns.min?.map (factor * ·) := by
  cases least : columns.min? with
  | none =>
    rw [List.min?_eq_none_iff.1 least]
    rfl
  | some column =>
    obtain ⟨member, below⟩ := List.min?_eq_some_iff.1 least
    refine List.min?_eq_some_iff.2 ⟨List.mem_map_of_mem member, ?_⟩
    intro other inside
    obtain ⟨c, found, rfl⟩ := List.mem_map.1 inside
    exact Int.mul_le_mul_of_nonneg_left (below c found) (Int.le_of_lt positive)

theorem startOf_stretched (tree : Tree) (line : Int) :
    startOf (tree.stretched w) (w.line line) = (startOf tree line).map (w.factor * ·) := by
  have tokens : (tree.tokens.map (Token.relaid w.line w.column)).filter
        (fun t => t.isSignificant && t.line = w.line line) =
      (tree.tokens.filter fun t => t.isSignificant && t.line = line).map (Token.relaid w.line w.column) := by
    rw [List.filter_map]
    apply congrArg
    apply List.filter_congr
    intro t _
    exact congrArg (t.isSignificant && ·) (decide_eq_decide.2 w.line_injective.eq_iff)
  unfold startOf
  rw [tokens, ← min?_map_mul w.positive, List.map_map, List.map_map]
  rfl

theorem unevenLine?_stretched (widened : Widened w checker wide) (line : Int) :
    wide.unevenLine? (tree.stretched w) (w.line line) = (checker.unevenLine? tree line).map (Finding.stretched w) := by
  unfold unevenLine?
  rw [startOf_stretched, widened.step]
  cases startOf tree line with
  | none => rfl
  | some column =>
    dsimp only [Option.map_some]
    rw [Int.mul_emod_mul_of_pos _ _ w.positive, apply_ite (Option.map (Finding.stretched w))]
    refine if_congr ?_ rfl rfl
    rw [Int.mul_eq_zero, or_iff_right (Int.ne_of_gt w.positive)]

theorem unevenOutside_stretched (widened : Widened w checker wide) (tree : Tree) (skipped : List Int) :
    wide.unevenOutside (tree.stretched w) (skipped.map w.line) =
      (checker.unevenOutside tree skipped).map (Finding.stretched w) := by
  have others : ((coveredLines tree).map w.line).filter (fun line => !(skipped.map w.line).contains line) =
      ((coveredLines tree).filter fun line => !skipped.contains line).map w.line := by
    rw [List.filter_map]
    apply congrArg
    apply List.filter_congr
    intro line _
    simp [w.line_injective.eq_iff]
  rw [unevenOutside, unevenOutside, coveredLines_stretched, others, List.filterMap_map, List.map_filterMap]
  apply List.filterMap_congr
  intro line _
  exact unevenLine?_stretched widened line

theorem checkMultiples_stretched (widened : Widened w checker wide) (tree : Tree) (skipped : List Int) (s : State) :
    wide.checkMultiples (tree.stretched w) (skipped.map w.line) (s.stretched w) =
      (checker.checkMultiples tree skipped s).stretched w := by
  have findings := unevenOutside_stretched widened tree skipped
  have reported : ((checker.unevenOutside tree skipped).map (Finding.stretched w)).foldl State.report (s.stretched w) =
      ((checker.unevenOutside tree skipped).foldl State.report s).stretched w := by
    rw [List.foldl_map]
    exact List.foldl_hom (State.stretched w) fun s finding => s.stretched_report w finding
  unfold unevenOutside at findings reported
  unfold checkMultiples
  dsimp only
  rw [findings, reported, coveredLines_stretched, eraseDups_map w.line_injective, List.length_map, List.length_map]
  exact State.stretched_note w _ (.covered (coveredLines tree).length skipped.eraseDups.length)

end Multiples

theorem apply_stretched (rule : Rule) (i : tree.Id) :
    (rule.apply wide (tree.stretched w) i).ends (s.stretched w) = ((rule.apply checker tree i).ends s).stretched w := by
  obtain ⟨options, profile⟩ := checker
  obtain ⟨wider, same⟩ := wide
  obtain rfl : same = profile := widened.profile
  cases rule with
  | braces => exact checkBraces_stretched widened i
  | ifBodies => exact checkBodies_stretched widened i _
  | whileBody => exact checkBodies_stretched widened i _
  | doWhileBody => exact checkBodies_stretched widened i _
  | forBody => exact checkBodies_stretched widened i _
  | topLevel => exact checkTopLevel_stretched i
  | multiples =>
    have flagged : (s.stretched w).flaggedLines = s.flaggedLines.map w.line := List.map_append.symm
    refine Eq.trans ?_ (checkMultiples_stretched widened tree s.flaggedLines s)
    rw [← flagged]
    rfl

end Checker
end Check

/-- The same visit of the wider tree. -/
def Tree.Visit.stretched {tree : Tree} (visit : tree.Visit) : (tree.stretched w).Visit := ⟨visit.phase, visit.node⟩

theorem Tree.visits_stretched {tree : Tree} (levels : Nat) (i : tree.Id) :
    (tree.stretched w).visits levels i = (tree.visits levels i).map (Visit.stretched w) := by
  induction levels generalizing i with
  | zero => rfl
  | succ levels ih =>
    rw [visits, visits, List.map_cons, List.map_append, List.map_flatMap]
    exact congrArg (fun below => _ :: (below ++ _)) (List.flatMap_congr fun c _ => ih c)

theorem Tree.walk_stretched (tree : Tree) : (tree.stretched w).walk = tree.walk.map (Visit.stretched w) := by
  rw [walk_eq_visits, walk_eq_visits]
  exact visits_stretched w tree.size tree.root

namespace Check.Checker

theorem after_eq_ends (checker : Checker) {tree : Tree} (s : State) (visit : tree.Visit) :
    checker.after tree s visit = (checker.visit tree visit).ends s := by
  unfold after Step.ends
  cases checker.visit tree visit s with
  | ok _ next => rfl
  | error _ next => rfl

variable {w} {checker wide : Checker} (widened : Widened w checker wide) {tree : Tree}
include widened

theorem after_stretched (s : State) (visit : tree.Visit) :
    wide.after (tree.stretched w) (s.stretched w) (visit.stretched w) = (checker.after tree s visit).stretched w := by
  rw [after_eq_ends, after_eq_ends]
  have called : Rule.of? (visit.stretched w).phase ((tree.stretched w).node (visit.stretched w).node).kind =
      Rule.of? visit.phase (tree.node visit.node).kind := rfl
  unfold Checker.visit
  rw [called]
  cases Rule.of? visit.phase (tree.node visit.node).kind with
  | none => rfl
  | some rule => exact apply_stretched widened rule visit.node

/-- The wider checker ends in the wider state. -/
theorem check_stretched (tree : Tree) (s : State) :
    ∃ next, checker.check tree s = .ok () next ∧
      wide.check (tree.stretched w) (s.stretched w) = .ok () (next.stretched w) := by
  refine ⟨_, check_eq checker tree s, ?_⟩
  have began : (s.stretched w).note (.began tree.size) = (s.note (.began tree.size)).stretched w :=
    s.stretched_note w (.began tree.size)
  rw [check_eq, Tree.walk_stretched, List.foldl_map, began]
  exact congrArg (EStateM.Result.ok ()) (List.foldl_hom (State.stretched w) (after_stretched widened))

end Check.Checker
end Indentation
