import Indentation.Check.Journal
import Indentation.Proofs.Settling
import Indentation.Proofs.Totality

/-! Checking a tree twice. After one check the table holds everything that the nodes of the
tree decide, so a second check of the same tree by the same checker finds the same again and
corrects nothing. This needs no order among the numbers of the nodes, and it does not matter
what the checker was used for before. -/

namespace Indentation.Check.Checker

/-- Everything that a check finds is found once more by a second one, in the same order. -/
theorem check_twice (tree : Tree) (only : ∀ i : tree.Id, i ≠ tree.root → (tree.node i).kind ≠ .sourceUnit)
    (options : Options) (profile : Profile) (s : State) :
    ∃ (first second : State) (found : List Diagnostic),
      (Checker.mk options profile).check tree s = .ok () first ∧
      (Checker.mk options profile).check tree first = .ok () second ∧
      first.diagnostics options = s.diagnostics options ++ found ∧
      second.diagnostics options = first.diagnostics options ++ found ∧
      second.corrections = first.corrections := by
  let checker : Checker := ⟨options, profile⟩
  obtain ⟨first, checked, once⟩ := checker.exists_checks only s
  have settled : checker.Settled s.corrections (· ∈ tree.entered) first.corrections := by
    simpa using once.settled
  obtain ⟨second, again, twice⟩ := settled.check only
  have corrections : second.corrections = first.corrections := twice.again fun i member => member
  have flagged : ∀ line, line ∈ second.flaggedLines ↔ line ∈ first.flaggedLines := by
    intro line
    rw [twice.flagged, corrections, once.flagged, or_assoc, or_self]
  have findings := twice.findings
  rw [corrections, unevenOutside_congr flagged] at findings
  refine ⟨first, second, (checker.straysUnder tree first.corrections ++
    if (tree.node tree.root).kind = .sourceUnit then checker.unevenOutside tree first.flaggedLines else []).map
      (·.diagnostic options.unit), checked, again, ?_, ?_, corrections⟩
  · rw [State.diagnostics, once.findings, List.map_append]
    rfl
  · rw [State.diagnostics, findings, List.map_append]
    rfl

def tangledTree : Tree := (Tree.ofEntries tangled none).toOption.get (by decide +kernel)

/-- The child that is listed twice is checked twice by each check, and corrected once. -/
theorem check_twice_tangled :
    ∃ (first second : State) (found : List Diagnostic),
      Tree.ofEntries tangled none = .ok tangledTree ∧
      found =
        [⟨1, 2, "indent", "Expected indentation of 0 spaces but found 2", .error⟩,
          ⟨1, 2, "indent", "Expected indentation of 0 spaces but found 2", .error⟩,
          ⟨2, 3, "indent", "Expected indentation of 4 spaces but found 3", .error⟩,
          ⟨2, 3, "indent", "Expected indentation of 4 spaces but found 3", .error⟩] ∧
      (Checker.mk .fallback {}).check tangledTree {} = .ok () first ∧
      (Checker.mk .fallback {}).check tangledTree first = .ok () second ∧
      first.diagnostics .fallback = found ∧ second.diagnostics .fallback = found ++ found ∧
      first.corrections = [(.whole 1, ⟨2, 0⟩), (.whole 3, ⟨3, 4⟩)] ∧ second.corrections = first.corrections := by
  have accepted : Tree.ofEntries tangled none = .ok tangledTree := by
    obtain ⟨tree, accepted⟩ : ∃ tree, Tree.ofEntries tangled none = .ok tree := Tree.exists_ofEntries (by decide)
    simp [tangledTree, accepted, Except.toOption]
  have only := Tree.only_root_of_entries accepted (by decide)
  obtain ⟨first, second, found, checked, again, once, twice, kept⟩ := check_twice tangledTree only .fallback {} {}
  obtain ⟨next, run, adds⟩ := (Checker.mk .fallback {}).check_midway tangledTree
  cases run.symm.trans checked
  have even : ∀ skipped, (Checker.mk .fallback {}).unevenOutside tangledTree skipped = [] := by
    intro skipped
    apply unevenOutside_eq_nil
    rw [(Tree.holds_of_accepted accepted).tokens]
    simp [tangled]
  have passed : ((Checker.mk .fallback {}).midway tangledTree tangledTree.walk.dropLast).findings =
      [⟨1, 2, .misplaced 0⟩, ⟨1, 2, .misplaced 0⟩, ⟨2, 3, .misplaced 4⟩, ⟨2, 3, .misplaced 4⟩] := by decide +kernel
  have table : ((Checker.mk .fallback {}).midway tangledTree tangledTree.walk.dropLast).corrections =
      [(.whole 1, ⟨2, 0⟩), (.whole 3, ⟨3, 4⟩)] := by decide +kernel
  have findings := adds.findings
  rw [passed, even, ite_self, List.append_nil] at findings
  have alone : first.diagnostics .fallback = found := once
  refine ⟨first, second, found, accepted, ?_, checked, again, alone, by rw [twice, alone], ?_, kept⟩
  · rw [← alone, State.diagnostics, findings]
    decide +kernel
  · rw [adds.corrections, table, List.append_nil]

end Indentation.Check.Checker
