import Indentation.Proofs.CheckedChildren
import Indentation.Proofs.CheckVisits
import Indentation.Proofs.LineStarts

/-! What a rule adds to the state of a check. Findings, flagged lines and, for nodes that
have none yet, corrections are put behind what is there already. -/

namespace Indentation.Check

/-- The second state is the first with more behind it. -/
structure Adds (s next : State) (findings : List Finding) (corrections : Corrections)
    (bodyLines memberLines : List Int) : Prop where
  findings : next.findings = s.findings ++ findings
  corrections : next.corrections = s.corrections ++ corrections
  bodyLines : next.bodyLines = s.bodyLines ++ bodyLines
  memberLines : next.memberLines = s.memberLines ++ memberLines

namespace Adds

variable {s middle next : State} {findings findings' : List Finding} {corrections corrections' : Corrections}
  {bodyLines bodyLines' memberLines memberLines' : List Int}

theorem refl (s : State) : Adds s s [] [] [] [] := by
  constructor <;> simp

theorem trans (first : Adds s middle findings corrections bodyLines memberLines)
    (second : Adds middle next findings' corrections' bodyLines' memberLines') :
    Adds s next (findings ++ findings') (corrections ++ corrections') (bodyLines ++ bodyLines')
      (memberLines ++ memberLines') where
  findings := by rw [second.findings, first.findings, List.append_assoc]
  corrections := by rw [second.corrections, first.corrections, List.append_assoc]
  bodyLines := by rw [second.bodyLines, first.bodyLines, List.append_assoc]
  memberLines := by rw [second.memberLines, first.memberLines, List.append_assoc]

end Adds

/-- No correction is recorded for a node. -/
def Fresh {tree : Tree} (s : State) (i : tree.Id) : Prop := Corrections.of? s.corrections i.val = none

theorem record_of_fresh {table : Corrections} {number : Int} (fresh : Corrections.of? table number = none)
    (correction : Correction) :
    Corrections.record table (.whole number) correction = table ++ [(.whole number, correction)] := by
  simp only [Corrections.of?] at fresh
  simp [Corrections.record, Table.has, fresh, Table.put_of_find?_eq_none]

theorem of?_append (table more : Corrections) (number : Int) :
    Corrections.of? (table ++ more) number = (Corrections.of? table number).or (Corrections.of? more number) :=
  Table.find?_append table more _

theorem of?_corrections {tree : Tree} (column : Int) (ids : List tree.Id) (j : tree.Id) :
    Corrections.of? (ids.map (Checker.correctionOf tree column)) j.val =
      if j ∈ ids then some ⟨(tree.node j).column, column⟩ else none := by
  induction ids with
  | nil => rfl
  | cons i rest ih =>
    simp only [Corrections.of?] at ih
    by_cases same : i = j
    · simp [Corrections.of?, Table.find?, Checker.correctionOf, same]
    · have distinct : ¬ (i.val : Int) = j.val := fun equal => same (Fin.ext (Int.ofNat.inj equal))
      simpa [Corrections.of?, Table.find?, Checker.correctionOf, Key.whole, distinct, Ne.symm same] using ih

theorem of?_corrections_of_notMem {tree : Tree} {column : Int} {ids : List tree.Id} {j : tree.Id} (absent : j ∉ ids) :
    Corrections.of? (ids.map (Checker.correctionOf tree column)) j.val = none := by
  rw [of?_corrections, if_neg absent]

namespace Checker

variable (checker : Checker) {tree : Tree}

private theorem report_adds (findings : List Finding) (s : State) :
    Adds s (findings.foldl State.report s) findings [] [] [] := by
  induction findings generalizing s with
  | nil => exact Adds.refl s
  | cons finding rest ih =>
    have first : Adds s (s.report finding) [finding] [] [] [] := by
      constructor <;> simp [State.report]
    exact first.trans (ih (s.report finding))

theorem checkMultiples_adds (tree : Tree) (skipped : List Int) (s : State) :
    Adds s (checker.checkMultiples tree skipped s)
      (checker.unevenOutside tree skipped) [] [] [] := by
  have reported := report_adds (checker.unevenOutside tree skipped) s
  exact ⟨reported.findings, reported.corrections, reported.bodyLines, reported.memberLines⟩

section Leaving

variable {s : State} {i : tree.Id}

theorem after_exit (other : (tree.node i).kind ≠ .sourceUnit) : checker.after tree s ⟨.exit, i⟩ = s := by
  unfold after Checker.visit
  cases kind : (tree.node i).kind with
  | sourceUnit => exact absurd kind other
  | _ => rfl

theorem after_exit_sourceUnit (unit : (tree.node i).kind = .sourceUnit) :
    checker.after tree s ⟨.exit, i⟩ = checker.checkMultiples tree s.flaggedLines s := by
  unfold after Checker.visit
  rw [unit]
  rfl

end Leaving

/-- The last visit of a walk reports the uneven lines if the root is a source unit. -/
theorem leave_adds (checker : Checker) (tree : Tree) (s : State) :
    Adds s (checker.after tree s ⟨.exit, tree.root⟩)
      (if (tree.node tree.root).kind = .sourceUnit then checker.unevenOutside tree s.flaggedLines else []) [] [] [] := by
  split
  next unit =>
    rw [checker.after_exit_sourceUnit unit]
    exact checker.checkMultiples_adds tree s.flaggedLines s
  next other =>
    rw [checker.after_exit other]
    exact Adds.refl s

/-- The state of a check when some of its visits are behind it. -/
def midway (checker : Checker) (tree : Tree) (visits : List tree.Visit) : State :=
  visits.foldl (checker.after tree) (({} : State).note (.began tree.size))

/-- A check is what it has come to before it leaves the root, and then the uneven lines. -/
theorem check_midway (checker : Checker) (tree : Tree) :
    let s := checker.midway tree tree.walk.dropLast
    ∃ next, checker.check tree {} = .ok () next ∧
      Adds s next
        (if (tree.node tree.root).kind = .sourceUnit then checker.unevenOutside tree s.flaggedLines else []) [] [] [] := by
  intro s
  obtain ⟨between, walk, _⟩ := tree.exists_walk_eq
  have split : tree.walk = tree.walk.dropLast ++ [⟨.exit, tree.root⟩] := by
    rw [walk, ← List.cons_append, List.dropLast_concat]
  refine ⟨_, checker.check_eq tree {}, ?_⟩
  rw [split, List.foldl_append]
  exact checker.leave_adds tree s

end Checker
end Indentation.Check
