import Indentation.Proofs.CheckVisits
import Indentation.Proofs.Entries

/-! Checking is total. Whatever row of entries was accepted, the walk ends, every search for
an anchor ends at a node of the row, no rule is stopped, and every finding is acceptable to a
collector. -/

namespace Indentation

namespace Collector

def collect (collector : Collector) (unit : IndentUnit) (findings : List Finding) :
    Except Schema.Invalid Collector :=
  findings.foldlM (fun collector finding =>
    collector.report (.int finding.line) (.int finding.column) (.str "indent") (.str (finding.message unit)))
    collector

variable {collector : Collector} {severity : Severity}

private theorem report_ok (valid : collector.severity = .str severity.name) (line column : Int)
    (category message : String) :
    collector.report (.int line) (.int column) (.str category) (.str message) =
      .ok { collector with diagnostics := collector.diagnostics ++ [⟨line, column, category, message, severity⟩] } := by
  unfold Collector.report
  rw [valid]
  cases severity <;> rfl

/-- A collector with a valid severity takes every finding. -/
theorem collect_ok (valid : collector.severity = .str severity.name) (unit : IndentUnit)
    (findings : List Finding) :
    collector.collect unit findings =
      .ok { collector with
        diagnostics := collector.diagnostics ++
          findings.map fun finding => { finding.diagnostic unit with severity := severity } } := by
  induction findings generalizing collector with
  | nil => simp [collect, pure, Except.pure]
  | cons finding rest ih =>
    have reported := report_ok valid finding.line finding.column "indent" (finding.message unit)
    simp only [collect, List.foldlM_cons, reported, bind, Except.bind]
    rw [← collect]
    refine (ih ?_).trans ?_
    · exact valid
    · simp [Finding.diagnostic]

end Collector

namespace Check.Checker

/-- The lists of the row name places in it; the walk is worked off to its end and meets only
reached nodes; from these every climb up a line ends, at a node that its parent lists, and
there is an anchor; a body that opens has a token that ends it; the step is no divisor zero.
So the check returns, and a collector with any valid severity takes what it found. -/
theorem check_runs_to_end {entries : List Entry} {tokens : Option (List Token)} {tree : Tree}
    (accepted : Tree.ofEntries entries tokens = .ok tree) (options : Options) (profile : Profile)
    (severity : Severity) :
    (∀ i : tree.Id, ∃ entry, entries[i.val]? = some entry ∧
      (tree.node i).children.map (fun c => (c.val : Int)) = entry.children ∧
      (tree.node i).parent.map (fun p => (p.val : Int)) = entry.parent) ∧
    Tree.Works tree [(tree.root, false)] tree.walk ∧
    (∀ visit ∈ tree.walk, ∃ depth, Tree.Reached tree depth visit.node) ∧
    (∀ depth i, Tree.Reached tree depth i →
      (∃ top left level, Tree.Climbs tree i top ∧ tree.lineParent? top = none ∧
        tree.lineStart top = .ok left ∧ Tree.Reached tree level left) ∧
      ∃ anchor, tree.anchor i = .ok anchor) ∧
    (∀ i : tree.Id, (tree.opening? i).isSome → (tree.braces? i).isSome) ∧
    options.step ≠ 0 ∧
    ∃ s collector, (Checker.mk options profile).check tree {} = .ok () s ∧
      Collector.collect { severity := .str severity.name } options.unit s.findings = .ok collector ∧
      collector.diagnostics =
        s.findings.map fun finding => { finding.diagnostic options.unit with severity := severity } := by
  have holds := Tree.holds_of_accepted accepted
  refine ⟨?_, Tree.works_walk tree, fun visit member => Tree.reached_of_mem_walk member, ?_, ?_, ?_, ?_⟩
  · intro i
    obtain ⟨entry, found, _⟩ := holds.node i
    exact ⟨entry, found, holds.children i found, holds.parent i found⟩
  · intro depth i reached
    obtain ⟨top, _, _, climbs, stops, above⟩ := reached.outermost
    obtain ⟨left, looked, beside⟩ := above.lineStart
    obtain ⟨anchor, _, found, _⟩ := reached.anchor
    exact ⟨⟨top, left, _, climbs, stops, looked, beside⟩, anchor, found⟩
  · intro i opens
    rwa [Tree.isSome_braces?]
  · have positive := options.step_pos
    omega
  · refine ⟨_, _, check_eq _ tree {}, Collector.collect_ok rfl _ _, ?_⟩
    simp

/-- A root that lists its only child twice, a node that its parent does not list, and two
nodes that name each other as parents. -/
def tangled : List Entry :=
  [ { index := 0, kind := .sourceUnit, children := [1, 1], line := 1, column := 2, stopLine := 3 },
    { index := 1, kind := .block, parent := some 0, children := [2, 3, 4], line := 1, column := 2, stopLine := 3 },
    { index := 2, kind := .terminal, parent := some 1, line := 1, column := 2, stopLine := 1, text := "\x7b" },
    { index := 3, kind := .statement, parent := some 1, line := 2, column := 3, stopLine := 2 },
    { index := 4, kind := .terminal, parent := some 1, line := 3, column := 0, stopLine := 3, text := "\x7d" },
    { index := 5, kind := .block, parent := some 0, line := 1, column := 0, stopLine := 1 },
    { index := 6, kind := .other, parent := some 7, line := 1, column := 0, stopLine := 1 },
    { index := 7, kind := .other, parent := some 6, line := 1, column := 0, stopLine := 1 } ]

theorem check_runs_to_end_tangled :
    ∃ tree s, Tree.ofEntries tangled none = .ok tree ∧
      (Checker.mk .fallback {}).check tree {} = .ok () s := by
  obtain ⟨tree, accepted⟩ := Tree.exists_ofEntries (by decide : Tree.flaw? tangled.toArray = none)
  obtain ⟨_, _, _, _, _, _, s, _, checked, _⟩ := check_runs_to_end accepted .fallback {} .warning
  exact ⟨tree, s, accepted, checked⟩

end Check.Checker
end Indentation
