import Indentation.Proofs.Growth
import Indentation.Proofs.SearchLocality

/-! What entering a node does in any tree, whatever has been corrected before. The column
for the checked children of a node is read off the table of corrections as it is then. The
children that stand elsewhere, and the end of the body, are found; the children are
corrected unless they have been; and since only children are, nothing that the node itself
is measured from changes on the way. -/

namespace Indentation.Check

/-- The second state has more findings and flagged lines than the first. -/
structure Flags (s next : State) (found : List Finding) (bodies members : List Int) : Prop where
  findings : next.findings = s.findings ++ found
  bodyLines : next.bodyLines = s.bodyLines ++ bodies
  memberLines : next.memberLines = s.memberLines ++ members

/-- The second state has more findings than the first, and their lines are flagged. -/
structure Reports (s next : State) (found : List Finding) : Prop where
  findings : next.findings = s.findings ++ found
  flagged : ∀ line, line ∈ next.flaggedLines ↔ line ∈ s.flaggedLines ∨ ∃ finding ∈ found, finding.line = line

variable {s middle next : State} {found more : List Finding} {bodies members bodies' members' : List Int}

theorem Flags.refl (s : State) : Flags s s [] [] [] := by
  constructor <;> simp

theorem Flags.trans (first : Flags s middle found bodies members) (second : Flags middle next more bodies' members') :
    Flags s next (found ++ more) (bodies ++ bodies') (members ++ members') where
  findings := by rw [second.findings, first.findings, List.append_assoc]
  bodyLines := by rw [second.bodyLines, first.bodyLines, List.append_assoc]
  memberLines := by rw [second.memberLines, first.memberLines, List.append_assoc]

theorem Reports.refl (s : State) : Reports s s [] := by
  constructor <;> simp

theorem Reports.trans (first : Reports s middle found) (second : Reports middle next more) :
    Reports s next (found ++ more) := by
  constructor
  · rw [second.findings, first.findings, List.append_assoc]
  · intro line
    rw [second.flagged, first.flagged, or_assoc]
    simp only [List.mem_append, or_and_right, exists_or]

/-- Corrects nodes to one column, except those that have a correction. -/
def recordAll (tree : Tree) (column : Int) (ids : List tree.Id) (table : Corrections) : Corrections :=
  ids.foldl (fun table i => Corrections.record table (.whole i.val) ⟨(tree.node i).column, column⟩) table

theorem of?_record (table : Corrections) (number other : Int) (correction : Correction) :
    Corrections.of? (Corrections.record table (.whole number) correction) other =
      (Corrections.of? table other).or (if number = other then some correction else none) := by
  unfold Corrections.record
  by_cases same : number = other
  · subst same
    cases known : Corrections.of? table number with
    | some old =>
      have present : Table.has table (.whole number) = true := by
        rw [Table.has, show Table.find? table (.whole number) = some old from known]
        rfl
      simp [present, known]
    | none =>
      have missing : Table.has table (.whole number) = false := by
        rw [Table.has, show Table.find? table (.whole number) = none from known]
        rfl
      simp [missing, Corrections.of?, Table.find?_put]
  · have apart : Key.whole number ≠ Key.whole other := fun equal => same (Key.number.inj equal).1
    simp only [same, ↓reduceIte, Option.or_none]
    split
    · rfl
    · simp only [Corrections.of?, Table.find?_put, apart, ↓reduceIte]

section Recording

variable {tree : Tree} (column : Int) (table : Corrections)

theorem of?_recordAll (ids : List tree.Id) (j : tree.Id) :
    Corrections.of? (recordAll tree column ids table) j.val =
      (Corrections.of? table j.val).or (if j ∈ ids then some ⟨(tree.node j).column, column⟩ else none) := by
  induction ids generalizing table with
  | nil => simp [recordAll]
  | cons i rest ih =>
    have later := ih (Corrections.record table (.whole i.val) ⟨(tree.node i).column, column⟩)
    rw [of?_record, Option.or_assoc] at later
    refine later.trans (congrArg _ ?_)
    by_cases same : i = j
    · simp [same]
    · have distinct : ¬ (i.val : Int) = j.val := fun equal => same (Fin.ext (Int.ofNat.inj equal))
      simp [distinct, Ne.symm same]

variable {column table}

theorem of?_recordAll_of_notMem {ids : List tree.Id} {j : tree.Id} (absent : j ∉ ids) :
    Corrections.of? (recordAll tree column ids table) j.val = Corrections.of? table j.val := by
  rw [of?_recordAll, if_neg absent, Option.or_none]

theorem recordAll_append (first second : List tree.Id) :
    recordAll tree column (first ++ second) table = recordAll tree column second (recordAll tree column first table) :=
  List.foldl_append

theorem recordAll_of_known {ids : List tree.Id} (known : ∀ i ∈ ids, (Corrections.of? table i.val).isSome) :
    recordAll tree column ids table = table := by
  induction ids with
  | nil => rfl
  | cons i rest ih =>
    have present : Table.has table (.whole i.val) = true := known i List.mem_cons_self
    have here : Corrections.record table (.whole i.val) ⟨(tree.node i).column, column⟩ = table := by
      rw [Corrections.record, if_pos present]
    rw [recordAll, List.foldl_cons, here]
    exact ih fun j member => known j (List.mem_cons_of_mem _ member)

theorem recordAll_of_fresh {ids : List tree.Id} (distinct : ids.Nodup)
    (fresh : ∀ i ∈ ids, Corrections.of? table i.val = none) :
    recordAll tree column ids table = table ++ ids.map (Checker.correctionOf tree column) := by
  induction ids generalizing table with
  | nil => exact (List.append_nil _).symm
  | cons i rest ih =>
    obtain ⟨absent, distinct⟩ := List.nodup_cons.1 distinct
    have here : Corrections.record table (.whole i.val) ⟨(tree.node i).column, column⟩ =
        table ++ [Checker.correctionOf tree column i] := record_of_fresh (fresh i List.mem_cons_self) _
    rw [recordAll, List.foldl_cons, here]
    refine (ih distinct ?_).trans (List.append_assoc _ _ _)
    intro j member
    have other : j ∉ [i] := fun same => absent (List.mem_singleton.1 same ▸ member)
    rw [of?_append, fresh j (List.mem_cons_of_mem _ member), Option.none_or]
    exact of?_corrections_of_notMem other

/-- Correcting children of a node moves nothing that stands no deeper than the node. -/
theorem indentOf_recordAll {depth level : Nat} {i a : tree.Id} (reached : Tree.Reached tree depth i)
    (above : Tree.Reached tree level a) (upper : level ≤ depth) {ids : List tree.Id}
    (listed : ∀ c ∈ ids, c ∈ (tree.node i).children) :
    tree.indentOf (recordAll tree column ids table) a = tree.indentOf table a := by
  refine (Tree.upward_of_depth depth).indentOf ?_ ⟨level, upper, above⟩
  rintro j ⟨level, upper, here⟩
  apply of?_recordAll_of_notMem
  intro member
  have deeper := here.depth_unique (.child reached (listed j member))
  omega

end Recording

namespace Checker

section Visits

variable (checker : Checker) {tree : Tree} {s : State} {i : tree.Id}

theorem after_enter_sourceUnit (unit : (tree.node i).kind = .sourceUnit) :
    checker.after tree s ⟨.enter, i⟩ = checkTopLevel tree i s := by
  unfold after Checker.visit
  rw [unit]
  rfl

theorem after_enter_braces (anchored : tree.anchor i = .ok (tree.anchorOf i)) (braced : (tree.node i).kind.hasBraces) :
    checker.after tree s ⟨.enter, i⟩ = checker.bracesAt tree (tree.anchorOf i) i s := by
  have rule : Rule.of? .enter (tree.node i).kind = some .braces := by
    revert braced
    cases (tree.node i).kind <;> simp [Kind.hasBraces, Rule.of?]
  unfold after Checker.visit
  simp only [rule, Rule.apply, checker.checkBraces_eq anchored]

theorem after_enter_bodies (checks : checksBodies tree i) :
    checker.after tree s ⟨.enter, i⟩ = checker.checkBodies tree i (checker.slots tree i) s := by
  unfold after Checker.visit slots
  unfold checksBodies at checks
  cases kind : (tree.node i).kind <;> rw [kind] at checks
  all_goals first | rfl | cases checks

theorem bracesAt_eq (anchor i : tree.Id) (s : State) :
    checker.bracesAt tree anchor i s =
      match tree.ending? i with
      | none => s
      | some last => checkEnd tree anchor last (checker.checkMembers tree anchor i s) := by
  unfold bracesAt
  rw [Tree.ending?_eq_braces]
  cases tree.braces? i with
  | none => rfl
  | some ends =>
    obtain ⟨first, last⟩ := ends
    by_cases same : (tree.node first).line = (tree.node last).line <;> simp [same]

theorem members_sublist (i : tree.Id) : (tree.members i).Sublist (tree.node i).children := by
  unfold Tree.members
  split
  · exact (List.filter_sublist).trans ((List.drop_sublist _ _).trans (List.take_sublist _ _))
  · exact List.nil_sublist _

theorem mem_children_of_child? {position : Int} {c : tree.Id} (found : child? tree i position = some c) :
    c ∈ (tree.node i).children := by
  unfold child? at found
  split at found
  · cases found
  · exact List.mem_of_getElem? found

theorem mem_children_of_checked {c : tree.Id} (member : c ∈ checker.checked tree i) :
    c ∈ (tree.node i).children := by
  rcases mem_checked.1 member with ⟨_, listed, _⟩ | ⟨_, _, listed, _, _⟩ | ⟨slot, _⟩
  · exact listed
  · exact List.mem_of_getElem? listed
  · rw [governed_eq_slots] at slot
    obtain ⟨_, _, found⟩ := List.mem_filterMap.1 slot
    exact mem_children_of_child? found

end Visits

variable (checker : Checker) {tree : Tree} (table : Corrections) (i : tree.Id)

/-- The column for the checked children of a node under a table of corrections. -/
def baseUnder : Int :=
  if (tree.node i).kind = .sourceUnit then 0
  else if (tree.node i).kind.hasBraces then tree.indentOf table (tree.anchorOf i) + checker.options.step
  else checker.requiredBody tree { corrections := table } i

def misplacedUnder : List tree.Id :=
  (checker.checked tree i).filter fun c => (tree.node c).column ≠ checker.baseUnder table i

/-- The token that ends the body of a node, if it does not stand under the anchor. -/
def misplacedEndUnder (table : Corrections) (i : tree.Id) : Option tree.Id :=
  if (tree.node i).kind.hasBraces then
    (tree.ending? i).filter fun last => (tree.node last).column ≠ tree.indentOf table (tree.anchorOf i)
  else none

def findingsUnder : List Finding :=
  (checker.misplacedUnder table i).map (findingOf tree (checker.baseUnder table i)) ++
    (misplacedEndUnder table i).toList.map (findingOf tree (tree.indentOf table (tree.anchorOf i)))

def bodyLinesUnder : List Int :=
  if checksBodies tree i then (checker.findingsUnder table i).map (·.line) else []

def memberLinesUnder : List Int :=
  if checksBodies tree i then [] else (checker.findingsUnder table i).map (·.line)

variable {checker table i}

theorem listed_of_misplacedUnder {c : tree.Id} (member : c ∈ checker.misplacedUnder table i) :
    c ∈ (tree.node i).children :=
  checker.mem_children_of_checked (List.mem_of_mem_filter member)

theorem listed_of_misplacedEndUnder {last : tree.Id} (found : misplacedEndUnder table i = some last) :
    last ∈ (tree.node i).children := by
  unfold misplacedEndUnder at found
  split at found
  next =>
    have ends := (Option.filter_eq_some_iff.1 found).1
    exact List.mem_of_getLast? (Tree.getLast?_of_ending? ends)
  next => cases found

theorem cause_of_findingsUnder {finding : Finding} (member : finding ∈ checker.findingsUnder table i) :
    ∃ required, finding.cause = .misplaced required := by
  rcases List.mem_append.1 member with inside | inside
  · obtain ⟨c, _, rfl⟩ := List.mem_map.1 inside
    exact ⟨_, rfl⟩
  · obtain ⟨c, _, rfl⟩ := List.mem_map.1 inside
    exact ⟨_, rfl⟩

section Agreement

variable {Within : tree.Id → Prop} (upward : Tree.Upward tree Within) {other : Corrections}
  (same : ∀ j : tree.Id, Within j → Corrections.of? table j.val = Corrections.of? other j.val) (within : Within i)
include upward same within

theorem baseUnder_congr : checker.baseUnder table i = checker.baseUnder other i := by
  unfold baseUnder
  rw [upward.indentOf same (upward.anchorOf within)]
  split
  · rfl
  · split
    · rfl
    · unfold requiredBody
      cases named : (tree.node i).parent with
      | none => rfl
      | some p =>
        dsimp only
        rw [upward.indentOf same (upward.parent within named)]

theorem misplacedUnder_congr : checker.misplacedUnder table i = checker.misplacedUnder other i := by
  unfold misplacedUnder
  rw [baseUnder_congr upward same within]

theorem findingsUnder_congr : checker.findingsUnder table i = checker.findingsUnder other i := by
  unfold findingsUnder misplacedEndUnder
  rw [misplacedUnder_congr upward same within, baseUnder_congr upward same within,
    upward.indentOf same (upward.anchorOf within)]

end Agreement

/-- What entering a node does. -/
structure Entered (checker : Checker) (i : tree.Id) (s next : State) : Prop where
  corrections : next.corrections =
    recordAll tree (checker.baseUnder s.corrections i) (checker.misplacedUnder s.corrections i) s.corrections
  flags : Flags s next (checker.findingsUnder s.corrections i) (checker.bodyLinesUnder s.corrections i)
    (checker.memberLinesUnder s.corrections i)

theorem Entered.reports {s next : State} (entered : Entered checker i s next) :
    Reports s next (checker.findingsUnder s.corrections i) := by
  refine ⟨entered.flags.findings, ?_⟩
  intro line
  unfold State.flaggedLines
  rw [entered.flags.bodyLines, entered.flags.memberLines, bodyLinesUnder, memberLinesUnder]
  by_cases checks : checksBodies tree i
  · simp only [checks, ↓reduceIte, List.append_nil, List.mem_append, List.mem_map]
    exact or_right_comm
  · simp only [checks, ↓reduceIte, List.append_nil, List.mem_append, List.mem_map, or_assoc, Bool.false_eq_true]

section Rules

variable {s : State}

theorem requireMembers_flags (column : Int) (ids : List tree.Id) (s : State) :
    let off := ids.filter fun i => (tree.node i).column ≠ column
    (ids.foldl (requireMember tree column) s).corrections = recordAll tree column off s.corrections ∧
      Flags s (ids.foldl (requireMember tree column) s) (off.map (findingOf tree column)) []
        (off.map fun i => (tree.node i).line) := by
  induction ids generalizing s with
  | nil => exact ⟨rfl, Flags.refl s⟩
  | cons i rest ih =>
    by_cases same : (tree.node i).column = column
    · have stays : requireMember tree column s i = s := if_pos same
      simpa [same, stays] using ih s
    · have moves : requireMember tree column s i =
          (s.misplaceMember (tree.node i).line (tree.node i).column column).correct (.whole i.val)
            ⟨(tree.node i).column, column⟩ := if_neg same
      have first : Flags s (requireMember tree column s i) [findingOf tree column i] [] [(tree.node i).line] := by
        rw [moves]
        exact ⟨rfl, (List.append_nil _).symm, rfl⟩
      obtain ⟨corrections, flags⟩ := ih (requireMember tree column s i)
      constructor
      · rw [List.foldl_cons, corrections, moves]
        simp [same, recordAll, State.correct, State.misplaceMember, State.report]
      · simpa [same] using first.trans flags

theorem enter_sourceUnit (unit : (tree.node i).kind = .sourceUnit) :
    Entered checker i s (checker.after tree s ⟨.enter, i⟩) := by
  have base : checker.baseUnder s.corrections i = 0 := if_pos unit
  have bare : misplacedEndUnder s.corrections i = none := by
    simp [misplacedEndUnder, unit, Kind.hasBraces]
  have entered : checker.after tree s ⟨.enter, i⟩ = (checker.checked tree i).foldl (requireMember tree 0) s := by
    rw [checker.after_enter_sourceUnit unit, checked_sourceUnit unit]
    rfl
  obtain ⟨corrections, flags⟩ := requireMembers_flags 0 (checker.checked tree i) s
  rw [entered]
  constructor
  · rw [corrections, misplacedUnder, base]
  · simpa [findingsUnder, bodyLinesUnder, memberLinesUnder, checksBodies, unit, misplacedUnder, base, bare, findingOf,
      Function.comp_def] using flags

theorem checkEnd_flags (anchor last : tree.Id) (s : State) :
    let column := tree.indentOf s.corrections anchor
    (checkEnd tree anchor last s).corrections = s.corrections ∧
      Flags s (checkEnd tree anchor last s)
        (if (tree.node last).column = column then [] else [findingOf tree column last]) []
        (if (tree.node last).column = column then [] else [(tree.node last).line]) := by
  intro column
  unfold checkEnd
  by_cases same : (tree.node last).column = column
  · simpa [same, column] using Flags.refl s
  · simp only [same, ↓reduceIte, column] at *
    exact ⟨rfl, rfl, (List.append_nil _).symm, rfl⟩

theorem enter_braces {depth : Nat} (reached : Tree.Reached tree depth i) (braced : (tree.node i).kind.hasBraces) :
    Entered checker i s (checker.after tree s ⟨.enter, i⟩) := by
  have other := Kind.ne_sourceUnit_of_hasBraces braced
  rw [checker.after_enter_braces reached.anchorOf_eq braced, bracesAt_eq]
  cases ends : tree.ending? i with
  | none =>
    have nothing : checker.checked tree i = [] := by simp [checked_braces braced, ends]
    constructor
    · simp [misplacedUnder, nothing, recordAll]
    · simpa [findingsUnder, bodyLinesUnder, memberLinesUnder, misplacedUnder, misplacedEndUnder, nothing, braced, ends]
        using Flags.refl s
  | some last =>
    have members : checker.checked tree i = tree.members i := by simp [checked_braces braced, ends]
    have base : checker.baseUnder s.corrections i =
        tree.indentOf s.corrections (tree.anchorOf i) + checker.options.step := by
      rw [baseUnder, if_neg other, if_pos braced]
    have entered : checker.checkMembers tree (tree.anchorOf i) i s =
        (checker.checked tree i).foldl (requireMember tree (checker.baseUnder s.corrections i)) s := by
      rw [checkMembers, ← base, members]
    obtain ⟨corrections, first⟩ := requireMembers_flags (checker.baseUnder s.corrections i) (checker.checked tree i) s
    rw [← entered] at corrections first
    -- The members stand below the anchor, so its column is still the same.
    obtain ⟨level, upper, above⟩ := (Tree.upward_of_depth depth).anchorOf ⟨depth, Nat.le_refl _, reached⟩
    have still : tree.indentOf (checker.checkMembers tree (tree.anchorOf i) i s).corrections (tree.anchorOf i) =
        tree.indentOf s.corrections (tree.anchorOf i) := by
      rw [corrections]
      refine indentOf_recordAll reached above upper fun c member => ?_
      exact checker.mem_children_of_checked (List.mem_of_mem_filter member)
    obtain ⟨kept, second⟩ := checkEnd_flags (tree.anchorOf i) last (checker.checkMembers tree (tree.anchorOf i) i s)
    rw [still] at second
    constructor
    · rw [kept, corrections, misplacedUnder]
    · have both := first.trans second
      by_cases under : (tree.node last).column = tree.indentOf s.corrections (tree.anchorOf i)
      · simpa [findingsUnder, bodyLinesUnder, memberLinesUnder, checksBodies, misplacedUnder, misplacedEndUnder, braced,
          ends, under, Option.filter, findingOf, Function.comp_def] using both
      · simpa [findingsUnder, bodyLinesUnder, memberLinesUnder, checksBodies, misplacedUnder, misplacedEndUnder, braced,
          ends, under, Option.filter, findingOf, Function.comp_def] using both

theorem checkBody_flags (position : Int) {column : Int} (required : checker.requiredBody tree s i = column) :
    let off := ((child? tree i position).toList.filter (isLoose tree i)).filter fun c => (tree.node c).column ≠ column
    (checker.checkBody tree i s position).corrections = recordAll tree column off s.corrections ∧
      Flags s (checker.checkBody tree i s position) (off.map (findingOf tree column))
        (off.map fun c => (tree.node c).line) [] := by
  unfold checkBody
  cases found : child? tree i position with
  | none => exact ⟨rfl, Flags.refl s⟩
  | some body =>
    by_cases exempt : hasOwnRule (controlledKind tree body) || (tree.node body).line = (tree.node i).line
    · have bound : isLoose tree i body = false := by
        rw [isLoose_eq]
        rcases Bool.or_eq_true_iff.1 exempt with own | same
        · simp [own]
        · simp [of_decide_eq_true same]
      simpa [exempt, bound, recordAll] using Flags.refl s
    · have loose : isLoose tree i body = true := by simpa [isLoose_eq] using exempt
      simp only [exempt, required]
      by_cases same : (tree.node body).column = column
      · simpa [loose, same, recordAll] using Flags.refl s
      · simp only [Option.toList_some, loose, List.filter_cons_of_pos, List.filter_nil, ne_eq, same, not_false_eq_true,
          decide_true, List.map_cons, List.map_nil, Bool.false_eq_true, ↓reduceIte]
        exact ⟨rfl, rfl, rfl, (List.append_nil _).symm⟩

theorem checkBodies_flags (positions : List Int) (column : Int) (s : State)
    (steady : ∀ ids : List tree.Id, (∀ c ∈ ids, c ∈ (tree.node i).children) →
      checker.requiredBody tree { corrections := recordAll tree column ids s.corrections } i = column) :
    let off := ((positions.filterMap (child? tree i)).filter (isLoose tree i)).filter fun c =>
      (tree.node c).column ≠ column
    (checker.checkBodies tree i positions s).corrections = recordAll tree column off s.corrections ∧
      Flags s (checker.checkBodies tree i positions s) (off.map (findingOf tree column))
        (off.map fun c => (tree.node c).line) [] := by
  induction positions generalizing s with
  | nil => exact ⟨rfl, Flags.refl s⟩
  | cons position rest ih =>
    have split : (position :: rest).filterMap (child? tree i) =
        (child? tree i position).toList ++ rest.filterMap (child? tree i) := by
      cases found : child? tree i position <;> simp [found]
    obtain ⟨corrections, first⟩ := checkBody_flags (s := s) position (steady [] nofun)
    have listed : ∀ c ∈ ((child? tree i position).toList.filter (isLoose tree i)).filter fun c =>
        (tree.node c).column ≠ column, c ∈ (tree.node i).children := fun c member =>
      mem_children_of_child? (Option.mem_toList.1 (List.mem_of_mem_filter (List.mem_of_mem_filter member)))
    obtain ⟨later, second⟩ := ih (checker.checkBody tree i s position) (by
      intro ids inside
      rw [corrections, ← recordAll_append]
      apply steady
      intro c member
      rcases List.mem_append.1 member with before | after
      · exact listed c before
      · exact inside c after)
    rw [corrections, ← recordAll_append] at later
    simp only [split, List.filter_append, List.map_append]
    exact ⟨later, first.trans second⟩

theorem enter_bodies {depth : Nat} (reached : Tree.Reached tree depth i) (checks : checksBodies tree i) :
    Entered checker i s (checker.after tree s ⟨.enter, i⟩) := by
  obtain ⟨other, bare⟩ := checksBodies_iff.1 checks
  have base : checker.baseUnder s.corrections i = checker.requiredBody tree { corrections := s.corrections } i := by
    rw [baseUnder, if_neg other, if_neg bare]
  have ending : misplacedEndUnder s.corrections i = none := if_neg bare
  have slots : checker.checked tree i = _ := checked_bodies checks
  obtain ⟨corrections, flags⟩ := checkBodies_flags (checker.slots tree i)
    (checker.baseUnder s.corrections i) s (by
      intro ids listed
      rw [base]
      unfold requiredBody
      cases named : (tree.node i).parent with
      | none => rfl
      | some p =>
        obtain ⟨level, deeper, above, _⟩ := reached.up named
        dsimp only
        rw [indentOf_recordAll reached above (by omega) listed])
  rw [checker.after_enter_bodies checks]
  constructor
  · rw [corrections, misplacedUnder, slots]
  · simpa [findingsUnder, bodyLinesUnder, memberLinesUnder, checks, misplacedUnder, ending, slots, findingOf,
      Function.comp_def] using flags

/-- Entering a reached node, whatever its kind. -/
theorem entered_of_reached {depth : Nat} (reached : Tree.Reached tree depth i) (s : State) :
    Entered checker i s (checker.after tree s ⟨.enter, i⟩) := by
  by_cases unit : (tree.node i).kind = .sourceUnit
  · exact enter_sourceUnit unit
  · by_cases braced : (tree.node i).kind.hasBraces
    · exact enter_braces reached braced
    · exact enter_bodies reached (checksBodies_iff.2 ⟨unit, braced⟩)

end Rules
end Checker
end Indentation.Check
