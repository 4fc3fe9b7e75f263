import Indentation.Check.Journal
import Indentation.Proofs.Partition
import Mathlib.Data.List.Induction

/-! The books of a checker. Whatever is asked of it, on whatever trees and in whatever
order, and whether or not a request is stopped on the way, the checker only adds to its
findings, its flagged lines and its corrections. Every line is flagged for a finding that
names a column, and every correction that nobody asked for repeats such a finding. -/

namespace Indentation

/-- Whether a diagnostic names the column that it expects. -/
def Diagnostic.isExpectation (d : Diagnostic) : Bool :=
  "Expected indentation".toList.isPrefixOf d.message.toList

/-- Whether a finding names the column that it expects. -/
def Finding.isMisplaced (finding : Finding) : Bool := finding.cause ≠ .uneven

theorem Finding.isExpectation_diagnostic (unit : IndentUnit) (finding : Finding) :
    (finding.diagnostic unit).isExpectation = finding.isMisplaced := by
  have expected : ∀ required : String, "Expected indentation".toList.isPrefixOf
      (Finding.message.expected unit finding required).toList = true := by
    intro required
    rw [List.isPrefixOf_iff_prefix]
    refine ⟨(" of " ++ required ++ " " ++ unit.name ++ " but found " ++ toString finding.column).toList, ?_⟩
    rw [← String.toList_append]
    unfold Finding.message.expected
    simp only [← String.append_assoc]
    rfl
  obtain ⟨line, column, cause⟩ := finding
  cases cause with
  | misplaced required => exact expected _
  | unlike required => exact expected _
  | uneven =>
    have other : "Expected indentation".toList.isPrefixOf "Indentation is incorrect".toList = false := by decide
    exact other

namespace Check

/-- A correction that repeats a finding. -/
def Backed (findings : List Finding) (correction : Correction) : Prop :=
  correction.observed ≠ correction.expected ∧
    ∃ finding ∈ findings, finding.column = correction.observed ∧ finding.cause = .misplaced correction.expected

theorem Backed.mono {findings more : List Finding} {correction : Correction} (subset : findings ⊆ more)
    (backed : Backed findings correction) : Backed more correction := by
  obtain ⟨moved, finding, member, stands, belongs⟩ := backed
  exact ⟨moved, finding, subset member, stands, belongs⟩

/-- Additions of which every flagged line is accounted for by a finding, and the other way
round, and every correction repeats a finding. -/
structure Balanced (findings : List Finding) (corrections : Corrections) (bodyLines memberLines : List Int) : Prop where
  plain : ∀ finding ∈ findings, finding.cause = .uneven ∨ ∃ required, finding.cause = .misplaced required
  flagged : (bodyLines ++ memberLines).Perm ((findings.filter Finding.isMisplaced).map (·.line))
  backed : ∀ entry ∈ corrections, Backed findings entry.2

theorem Balanced.nil : Balanced [] [] [] [] := ⟨nofun, .nil, nofun⟩

private theorem regrouped (first first' second second' : List Int) :
    ((first ++ first') ++ (second ++ second')).Perm ((first ++ second) ++ (first' ++ second')) := by
  rw [List.append_assoc, List.append_assoc]
  exact (List.perm_append_comm_assoc first' second second').append_left first

theorem Balanced.append {findings findings' : List Finding} {corrections corrections' : Corrections}
    {bodyLines bodyLines' memberLines memberLines' : List Int}
    (first : Balanced findings corrections bodyLines memberLines)
    (second : Balanced findings' corrections' bodyLines' memberLines') :
    Balanced (findings ++ findings') (corrections ++ corrections') (bodyLines ++ bodyLines')
      (memberLines ++ memberLines') := by
  refine ⟨?_, ?_, ?_⟩
  · intro finding member
    rcases List.mem_append.1 member with old | new
    · exact first.plain finding old
    · exact second.plain finding new
  · rw [List.filter_append, List.map_append]
    exact (regrouped bodyLines bodyLines' memberLines memberLines').trans (first.flagged.append second.flagged)
  · intro entry member
    rcases List.mem_append.1 member with old | new
    · exact (first.backed entry old).mono (List.subset_append_left _ _)
    · exact (second.backed entry new).mono (List.subset_append_right _ _)

/-- The second state is the first with balanced additions. -/
def Accounts (s next : State) : Prop :=
  ∃ findings corrections bodyLines memberLines,
    Adds s next findings corrections bodyLines memberLines ∧ Balanced findings corrections bodyLines memberLines

namespace Accounts

variable {s middle next : State}

theorem refl (s : State) : Accounts s s := ⟨[], [], [], [], Adds.refl s, Balanced.nil⟩

theorem trans (first : Accounts s middle) (second : Accounts middle next) : Accounts s next := by
  obtain ⟨_, _, _, _, adds, balanced⟩ := first
  obtain ⟨_, _, _, _, more, also⟩ := second
  exact ⟨_, _, _, _, adds.trans more, balanced.append also⟩

theorem foldl {α : Type} {f : State → α → State} (step : ∀ s a, Accounts s (f s a)) (items : List α) (s : State) :
    Accounts s (items.foldl f s) := by
  induction items generalizing s with
  | nil => exact refl s
  | cons item rest ih => exact (step s item).trans (ih (f s item))

theorem note (s : State) (note : Note) : Accounts s (s.note note) :=
  ⟨[], [], [], [], by constructor <;> simp [State.note], Balanced.nil⟩

end Accounts

theorem exists_record (table : Corrections) (key : Key) (correction : Correction) :
    ∃ more, Corrections.record table key correction = table ++ more ∧ ∀ entry ∈ more, entry.2 = correction := by
  cases known : Table.find? table key with
  | some old => exact ⟨[], by simp [Corrections.record, Table.has, known], nofun⟩
  | none =>
    refine ⟨[(key, correction)], ?_, ?_⟩
    · simp [Corrections.record, Table.has, known, Table.put_of_find?_eq_none]
    · intro entry member
      rw [List.mem_singleton.1 member]

section Misplacing

variable (s : State) (line column required : Int)

private theorem balanced_misplaced {bodyLines memberLines : List Int} (flagged : bodyLines ++ memberLines = [line])
    {corrections : Corrections} (backed : ∀ entry ∈ corrections, Backed [⟨line, column, .misplaced required⟩] entry.2) :
    Balanced [⟨line, column, .misplaced required⟩] corrections bodyLines memberLines := by
  refine ⟨?_, ?_, backed⟩
  · intro finding member
    rw [List.mem_singleton.1 member]
    exact .inr ⟨required, rfl⟩
  · rw [flagged]
    exact .refl _

theorem Accounts.misplaceMember : Accounts s (s.misplaceMember line column required) :=
  ⟨_, [], [], [line], by constructor <;> simp [State.misplaceMember, State.report],
    balanced_misplaced line column required rfl nofun⟩

variable {column required}

private theorem backed_of_entry {more : Corrections} (moved : column ≠ required)
    (same : ∀ entry ∈ more, entry.2 = ⟨column, required⟩) :
    ∀ entry ∈ more, Backed [⟨line, column, .misplaced required⟩] entry.2 := by
  intro entry member
  rw [same entry member]
  exact ⟨moved, _, List.mem_singleton_self _, rfl, rfl⟩

theorem Accounts.correctMember (key : Key) (moved : column ≠ required) :
    Accounts s ((s.misplaceMember line column required).correct key ⟨column, required⟩) := by
  obtain ⟨more, recorded, same⟩ := exists_record s.corrections key ⟨column, required⟩
  refine ⟨_, more, [], [line], ⟨rfl, recorded, ?_, rfl⟩, ?_⟩
  · exact (List.append_nil _).symm
  · exact balanced_misplaced line column required rfl (backed_of_entry line moved same)

theorem Accounts.correctBody (key : Key) (moved : column ≠ required) :
    Accounts s ((s.misplaceBody line column required).correct key ⟨column, required⟩) := by
  obtain ⟨more, recorded, same⟩ := exists_record s.corrections key ⟨column, required⟩
  refine ⟨_, more, [line], [], ⟨rfl, recorded, rfl, ?_⟩, ?_⟩
  · exact (List.append_nil _).symm
  · exact balanced_misplaced line column required rfl (backed_of_entry line moved same)

end Misplacing

namespace Checker

variable (checker : Checker) {tree : Tree}

theorem requireMember_accounts (required : Int) (s : State) (i : tree.Id) :
    Accounts s (requireMember tree required s i) := by
  unfold requireMember
  dsimp only
  split
  next => exact .refl s
  next moved => exact .correctMember s _ _ moved

theorem checkMembers_accounts (anchor i : tree.Id) (s : State) : Accounts s (checker.checkMembers tree anchor i s) :=
  .foldl (requireMember_accounts _) _ s

theorem checkEnd_accounts (anchor last : tree.Id) (s : State) : Accounts s (checkEnd tree anchor last s) := by
  unfold checkEnd
  dsimp only
  split
  next => exact .refl s
  next => exact .misplaceMember s _ _ _

theorem checkBody_accounts (i : tree.Id) (s : State) (position : Int) :
    Accounts s (checker.checkBody tree i s position) := by
  unfold checkBody
  dsimp only
  split
  next => exact .refl s
  next =>
    split
    next => exact .refl s
    next =>
      split
      next => exact .refl s
      next moved => exact .correctBody s _ _ moved

theorem checkBodies_accounts (i : tree.Id) (positions : List Int) (s : State) :
    Accounts s (checker.checkBodies tree i positions s) :=
  .foldl (checker.checkBody_accounts i) positions s

theorem checkTopLevel_accounts (i : tree.Id) (s : State) : Accounts s (checkTopLevel tree i s) :=
  .foldl (requireMember_accounts 0) _ s

/-- Uneven lines are found without being flagged. -/
theorem checkMultiples_accounts (tree : Tree) (skipped : List Int) (s : State) :
    Accounts s (checker.checkMultiples tree skipped s) := by
  refine ⟨checker.unevenOutside tree skipped, [], [], [], checker.checkMultiples_adds tree skipped s, ?_⟩
  have uneven : ∀ finding ∈ checker.unevenOutside tree skipped, finding.cause = .uneven := by
    intro finding member
    obtain ⟨_, _, cause, _⟩ := mem_unevenOutside.1 member
    exact cause
  refine ⟨fun finding member => .inl (uneven finding member), ?_, nofun⟩
  rw [List.filter_eq_nil_iff.2]
  · exact .refl _
  · intro finding member
    simp [Finding.isMisplaced, uneven finding member]

end Checker

/-- The state in which a step ends, whether or not it was stopped. -/
def Step.ends {α : Type} (step : Step α) (s : State) : State :=
  match step s with
  | .ok _ next => next
  | .error _ next => next

/-- A step that keeps the books. -/
def Accountable {α : Type} (step : Step α) : Prop := ∀ s, Accounts s (step.ends s)

namespace Accountable

variable {α β : Type}

theorem value (a : α) : Accountable (pure a : Step α) := fun s => .refl s

theorem fault (cause : Fault) : Accountable (throw cause : Step α) := fun s => .refl s

theorem update {f : State → State} (kept : ∀ s, Accounts s (f s)) : Accountable (modify f : Step Unit) := kept

theorem bind {step : Step α} {next : α → Step β} (first : Accountable step) (later : ∀ a, Accountable (next a)) :
    Accountable (step >>= next) := by
  intro s
  have done := first s
  unfold Step.ends at done ⊢
  simp only [Bind.bind, EStateM.bind]
  cases result : step s with
  | ok a middle =>
    rw [result] at done
    exact done.trans (later a middle)
  | error fault middle =>
    rw [result] at done
    exact done

theorem forM {items : List α} {step : α → Step Unit} (each : ∀ item ∈ items, Accountable (step item)) :
    Accountable (items.forM step) := by
  induction items with
  | nil => exact value ()
  | cons item rest ih =>
    exact bind (each item List.mem_cons_self) fun _ => ih fun other member => each other (List.mem_cons_of_mem _ member)

end Accountable

section Operations

variable (checker : Checker) {tree : Tree}

theorem located_accountable (tree : Tree) (number : Int) : Accountable (located tree number) := by
  unfold located
  split
  next i _ => exact .value i
  next => exact .fault .outside

theorem checkBraces_accountable (i : tree.Id) : Accountable (checker.checkBraces tree i) := by
  unfold Checker.checkBraces
  split
  next => exact .value ()
  next first last _ =>
    split
    next => exact .value ()
    next =>
      split
      next lost _ => exact .fault (.lost lost)
      next anchor _ =>
        apply Accountable.update
        intro s
        exact (checker.checkMembers_accounts anchor i s).trans (Checker.checkEnd_accounts anchor last _)

theorem apply_accountable (rule : Rule) (i : tree.Id) : Accountable (rule.apply checker tree i) := by
  cases rule with
  | braces => exact checkBraces_accountable checker i
  | ifBodies => exact .update (checker.checkBodies_accounts i _)
  | whileBody => exact .update (checker.checkBodies_accounts i _)
  | doWhileBody => exact .update (checker.checkBodies_accounts i _)
  | forBody => exact .update (checker.checkBodies_accounts i _)
  | topLevel => exact .update (Checker.checkTopLevel_accounts i)
  | multiples => exact .update fun s => checker.checkMultiples_accounts tree s.flaggedLines s

theorem check_accountable (tree : Tree) : Accountable (checker.check tree) := by
  unfold Checker.check
  refine .bind (.update fun s => .note s _) fun _ => .forM ?_
  intro visit _
  unfold Checker.visit
  split
  next rule _ => exact apply_accountable checker rule visit.node
  next => exact .value ()

theorem record_eq (key : Key) (observed expected : Value) (s : State) :
    record key observed expected s =
      if Table.has s.corrections key then .ok false s
      else
        match (Correction.read { fields := [("observed", observed), ("expected", expected)] }).toExcept
          "IndentCorrection" with
        | .error invalid => .error (.invalid invalid) s
        | .ok correction => .ok true (s.correct key correction) := by
  -- The state that is read first is the one that the step is run on.
  change (if Table.has s.corrections key then (pure false : Step Bool) else _) s = _
  split
  next => rfl
  next =>
    cases (Correction.read { fields := [("observed", observed), ("expected", expected)] }).toExcept
        "IndentCorrection" with
    | error invalid => rfl
    | ok correction => rfl

/-- Recording ends without a change, or it is the first under its key and is answered so. -/
theorem record_cases (key : Key) (observed expected : Value) (s : State) :
    (∃ answer, record key observed expected s = .ok answer s) ∨
    (∃ fault, record key observed expected s = .error fault s) ∨
      ∃ correction, record key observed expected s =
        .ok true { s with corrections := s.corrections ++ [(key, correction)] } := by
  rw [record_eq]
  by_cases known : Table.has s.corrections key = true
  · exact .inl ⟨false, if_pos known⟩
  · rw [if_neg known]
    cases (Correction.read { fields := [("observed", observed), ("expected", expected)] }).toExcept
        "IndentCorrection" with
    | error invalid => exact .inr (.inl ⟨.invalid invalid, rfl⟩)
    | ok correction =>
      have missing : Table.find? s.corrections key = none := by simpa [Table.has] using known
      refine .inr (.inr ⟨correction, ?_⟩)
      simp [State.correct, Corrections.record, known, Table.put_of_find?_eq_none _ missing]

private theorem accountable_at {step : tree.Id → Step Unit} (kept : ∀ i, Accountable (step i)) (number : Int) :
    Accountable (do let i ← located tree number; step i; return (none : Option Bool)) := by
  refine .bind (located_accountable tree number) ?_
  intro i
  exact .bind (kept i) fun _ => .value none

/-- An operation keeps the books, or it was asked to store a correction and did. -/
theorem Operation.ends_cases (operation : Operation) (s : State) :
    Accounts s ((operation.run checker).ends s) ∨
      ∃ key observed expected correction, operation = .record key observed expected ∧
        operation.run checker s = .ok (some true) { s with corrections := s.corrections ++ [(key, correction)] } := by
  cases operation with
  | record key observed expected =>
    rcases record_cases key observed expected s with ⟨answer, same⟩ | ⟨fault, same⟩ | ⟨correction, stored⟩
    · left
      simp only [Step.ends, Operation.run, Functor.map, EStateM.map, same]
      exact .refl s
    · left
      simp only [Step.ends, Operation.run, Functor.map, EStateM.map, same]
      exact .refl s
    · right
      refine ⟨key, observed, expected, correction, rfl, ?_⟩
      simp only [Operation.run, Functor.map, EStateM.map, stored]
  | check tree =>
    left
    exact Accountable.bind (check_accountable checker tree) (fun _ => .value none) s
  | braces tree number =>
    left
    exact accountable_at (checkBraces_accountable checker) number s
  | member tree number required =>
    left
    exact accountable_at (fun i => .update fun s => Checker.requireMember_accounts required s i) number s
  | body tree number position =>
    left
    exact accountable_at (fun i => .update fun s => checker.checkBody_accounts i s position) number s
  | bodies tree number positions =>
    left
    exact accountable_at (fun i => .update (checker.checkBodies_accounts i positions)) number s
  | multiples tree skipped =>
    left
    exact Accountable.bind (.update (checker.checkMultiples_accounts tree skipped)) (fun _ => .value none) s
  | apply rule tree number =>
    left
    exact accountable_at (apply_accountable checker rule) number s

end Operations

/-- The second state is the first with more behind it. -/
def Grows (s next : State) : Prop :=
  ∃ findings corrections bodyLines memberLines, Adds s next findings corrections bodyLines memberLines

theorem Operation.grows (checker : Checker) (operation : Operation) (s : State) :
    Grows s ((operation.run checker).ends s) := by
  rcases Operation.ends_cases checker operation s with accounts | ⟨key, _, _, correction, _, stored⟩
  · obtain ⟨_, _, _, _, adds, _⟩ := accounts
    exact ⟨_, _, _, _, adds⟩
  · refine ⟨[], [(key, correction)], [], [], ?_⟩
    rw [Step.ends, stored]
    constructor <;> simp

namespace Checker

variable (checker : Checker)

/-- The state after operations, each made whether or not those before it were stopped. -/
def outcome (operations : List Operation) : State :=
  operations.foldl (fun s operation => (operation.run checker).ends s) {}

theorem outcome_concat (operations : List Operation) (operation : Operation) :
    checker.outcome (operations ++ [operation]) = (operation.run checker).ends (checker.outcome operations) :=
  List.foldl_concat _ _ _ _

/-- One of the operations was asked to store a correction under a key, and did. -/
def Asked (operations : List Operation) (key : Key) : Prop :=
  ∃ earlier observed expected later next, operations = earlier ++ .record key observed expected :: later ∧
    (Operation.record key observed expected).run checker (checker.outcome earlier) = .ok (some true) next

variable {checker}

theorem Asked.append {operations : List Operation} {key : Key} (asked : checker.Asked operations key)
    (more : List Operation) : checker.Asked (operations ++ more) key := by
  obtain ⟨earlier, observed, expected, later, next, rfl, stored⟩ := asked
  exact ⟨earlier, observed, expected, later ++ more, next, by simp, stored⟩

variable (checker)

theorem outcome_grows (operations later : List Operation) :
    Grows (checker.outcome operations) (checker.outcome (operations ++ later)) := by
  induction later using List.reverseRecOn with
  | nil =>
    rw [List.append_nil]
    exact ⟨_, _, _, _, Adds.refl _⟩
  | append_singleton later operation ih =>
    obtain ⟨_, _, _, _, adds⟩ := ih
    obtain ⟨_, _, _, _, more⟩ := operation.grows checker (checker.outcome (operations ++ later))
    rw [← List.append_assoc, outcome_concat]
    exact ⟨_, _, _, _, adds.trans more⟩

/-- The books after operations. -/
structure Booked (operations : List Operation) (s : State) : Prop where
  flagged : s.flaggedLines.Perm ((s.findings.filter Finding.isMisplaced).map (·.line))
  backed : ∀ entry ∈ s.corrections, checker.Asked operations entry.1 ∨ Backed s.findings entry.2

theorem outcome_booked (operations : List Operation) : checker.Booked operations (checker.outcome operations) := by
  -- By the last operation: whether a key was asked for depends on the state before it.
  induction operations using List.reverseRecOn with
  | nil => exact ⟨.nil, nofun⟩
  | append_singleton operations operation ih =>
    rw [outcome_concat]
    rcases Operation.ends_cases checker operation (checker.outcome operations) with
      ⟨findings, corrections, bodyLines, memberLines, adds, balanced⟩ |
      ⟨key, observed, expected, correction, rfl, stored⟩
    · constructor
      · rw [State.flaggedLines, adds.bodyLines, adds.memberLines, adds.findings, List.filter_append, List.map_append]
        exact (regrouped _ _ _ _).trans (ih.flagged.append balanced.flagged)
      · rw [adds.corrections, adds.findings]
        intro entry member
        rcases List.mem_append.1 member with old | new
        · exact (ih.backed entry old).imp (·.append _) (·.mono (List.subset_append_left _ _))
        · exact .inr ((balanced.backed entry new).mono (List.subset_append_right _ _))
    · rw [Step.ends, stored]
      refine ⟨ih.flagged, ?_⟩
      intro entry member
      rcases List.mem_append.1 member with old | new
      · exact (ih.backed entry old).imp_left (·.append _)
      · rw [List.mem_singleton.1 new]
        exact .inl ⟨operations, observed, expected, [], _, rfl, stored⟩

/-- After operations of any sort, and after any more of them: the flagged lines are those of
the diagnostics that expect a column; diagnostics and flagged lines are only added to; a
correction stays as it was stored; and one that was not asked for repeats a diagnostic. -/
theorem outcome_accounts (operations later : List Operation) :
    (checker.outcome operations).flaggedLines.Perm
      ((((checker.outcome operations).diagnostics checker.options).filter Diagnostic.isExpectation).map (·.line)) ∧
    (checker.outcome operations).diagnostics checker.options <+:
      (checker.outcome (operations ++ later)).diagnostics checker.options ∧
    (checker.outcome operations).bodyLines <+: (checker.outcome (operations ++ later)).bodyLines ∧
    (checker.outcome operations).memberLines <+: (checker.outcome (operations ++ later)).memberLines ∧
    (∀ key correction, Table.find? (checker.outcome operations).corrections key = some correction →
      Table.find? (checker.outcome (operations ++ later)).corrections key = some correction) ∧
    ∀ key correction, Table.find? (checker.outcome operations).corrections key = some correction →
      ¬ checker.Asked operations key →
        correction.observed ≠ correction.expected ∧
        ∃ d ∈ (checker.outcome operations).diagnostics checker.options, d.column = correction.observed ∧
          d.message = "Expected indentation of " ++ toString correction.expected ++ " " ++
            checker.options.unit.name ++ " but found " ++ toString correction.observed := by
  have booked := checker.outcome_booked operations
  obtain ⟨findings, corrections, bodyLines, memberLines, adds⟩ := checker.outcome_grows operations later
  refine ⟨?_, ?_, ⟨bodyLines, adds.bodyLines.symm⟩, ⟨memberLines, adds.memberLines.symm⟩, ?_, ?_⟩
  · have same : Diagnostic.isExpectation ∘ Finding.diagnostic checker.options.unit = Finding.isMisplaced :=
      funext (Finding.isExpectation_diagnostic checker.options.unit)
    rw [State.diagnostics, List.filter_map, same, List.map_map]
    exact booked.flagged
  · rw [State.diagnostics, State.diagnostics, adds.findings, List.map_append]
    exact List.prefix_append _ _
  · intro key correction found
    rw [adds.corrections, Table.find?_append, found, Option.some_or]
  · intro key correction found unasked
    rcases booked.backed _ (Table.mem_of_find? found) with asked | backed
    · exact absurd asked unasked
    · obtain ⟨moved, ⟨line, column, cause⟩, member, rfl, rfl⟩ := backed
      exact ⟨moved, _, List.mem_map_of_mem member, rfl, rfl⟩

end Checker
end Check
end Indentation
