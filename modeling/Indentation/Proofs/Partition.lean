import Indentation.Check.Journal
import Indentation.Proofs.Settling
import Indentation.Proofs.Totality

/-! The report of a check has two parts. First come the nodes that are misplaced. Then, in
rising order, come the lines whose first significant token stands between two steps, each
once, without the lines on which something is misplaced. -/

namespace Indentation.Check.Checker

variable {checker : Checker} {tree : Tree}

theorem cause_of_straysUnder {table : Corrections} {finding : Finding}
    (member : finding ∈ checker.straysUnder tree table) : ∃ required, finding.cause = .misplaced required := by
  obtain ⟨i, _, inside⟩ := List.mem_flatMap.1 member
  exact cause_of_findingsUnder inside

private theorem eq_singleton_of_rising {α : Type} {line : α → Int} {items : List α} {item : α}
    (rising : items.Pairwise fun a b => line a < line b) (member : item ∈ items) (only : ∀ other ∈ items, other = item) :
    items = [item] := by
  cases items with
  | nil => cases member
  | cons first rest =>
    obtain rfl := only first List.mem_cons_self
    cases rest with
    | nil => rfl
    | cons second more =>
      obtain rfl := only second (List.mem_cons_of_mem _ List.mem_cons_self)
      exact absurd ((List.pairwise_cons.1 rising).1 second List.mem_cons_self) (Int.lt_irrefl _)

/-- What a check of a source unit finds, in its two parts. -/
theorem check_partition (tree : Tree) (unit : (tree.node tree.root).kind = .sourceUnit)
    (only : ∀ i : tree.Id, i ≠ tree.root → (tree.node i).kind ≠ .sourceUnit) (options : Options) (profile : Profile) :
    ∃ (s : State) (strays uneven : List Diagnostic),
      (Checker.mk options profile).check tree {} = .ok () s ∧
      s.diagnostics options = strays ++ uneven ∧
      (∀ d ∈ strays, ∃ required : Int, d.message =
        "Expected indentation of " ++ toString required ++ " " ++ options.unit.name ++ " but found " ++
          toString d.column) ∧
      uneven.Pairwise (·.line < ·.line) ∧
      (∀ d, d ∈ uneven ↔
        ∃ line column, StartsAt tree line column ∧ ¬ options.step ∣ column ∧ (∀ e ∈ strays, e.line ≠ line) ∧
          d = ⟨line, column, "indent", "Indentation is incorrect", .error⟩) ∧
      ∀ d ∈ strays, ∀ e ∈ uneven, d.line ≠ e.line := by
  let checker : Checker := ⟨options, profile⟩
  obtain ⟨s, checked, checks⟩ := checker.exists_checks only {}
  let strays := (checker.straysUnder tree s.corrections).map (·.diagnostic options.unit)
  let uneven := (checker.unevenOutside tree s.flaggedLines).map (·.diagnostic options.unit)
  have outside : ∀ line, line ∉ s.flaggedLines ↔ ∀ e ∈ strays, e.line ≠ line := by
    intro line
    rw [checks.flagged]
    simp [strays, State.flaggedLines, Finding.diagnostic]
  have lines : ∀ d, d ∈ uneven ↔
      ∃ line column, StartsAt tree line column ∧ ¬ options.step ∣ column ∧ (∀ e ∈ strays, e.line ≠ line) ∧
        d = ⟨line, column, "indent", "Indentation is incorrect", .error⟩ := by
    intro d
    simp only [uneven, List.mem_map, mem_unevenOutside, outside]
    constructor
    · rintro ⟨⟨line, column, _⟩, ⟨starts, odd, rfl, free⟩, rfl⟩
      exact ⟨line, column, starts, odd, free, rfl⟩
    · rintro ⟨line, column, starts, odd, free, rfl⟩
      exact ⟨⟨line, column, .uneven⟩, ⟨starts, odd, rfl, free⟩, rfl⟩
  refine ⟨s, strays, uneven, checked, ?_, ?_, ?_, lines, ?_⟩
  · rw [State.diagnostics, checks.findings, if_pos unit]
    simp only [List.nil_append, List.map_append]
    rfl
  · intro d member
    obtain ⟨⟨line, column, cause⟩, found, rfl⟩ := List.mem_map.1 member
    obtain ⟨required, rfl⟩ : ∃ required, cause = .misplaced required := cause_of_straysUnder found
    exact ⟨required, rfl⟩
  · exact List.pairwise_map.2 (unevenOutside_rising s.flaggedLines)
  · intro d stray e member
    obtain ⟨line, _, _, _, free, rfl⟩ := (lines e).1 member
    exact free d stray

/-- Tokens out of order, with a comment and the end of the file before the start of a line. -/
def margins : List Token :=
  [ { text := "y", line := 5, column := 3 },
    { text := "/* x */", line := 5, column := 1, channel := 1 },
    { text := "<EOF>", line := 5, column := 0, type := -1 },
    { text := "\x7b", line := 1, column := 2 } ]

def margined : Tree := (Tree.ofEntries tangled (some margins)).toOption.get (by decide +kernel)

theorem accepted_margined : Tree.ofEntries tangled (some margins) = .ok margined := by
  obtain ⟨tree, accepted⟩ : ∃ tree, Tree.ofEntries tangled (some margins) = .ok tree :=
    Tree.exists_ofEntries (by decide)
  simp [margined, accepted, Except.toOption]

theorem mem_tokens_margined {t : Token} : t ∈ margined.tokens ↔ t ∈ margins := by
  rw [(Tree.holds_of_accepted accepted_margined).tokens, List.mem_mergeSort]
  rfl

/-- Only the first word of the fifth line is left for the base indent check. -/
theorem uneven_margined :
    (Checker.mk .fallback {}).unevenOutside margined [1, 1, 2, 2] = [⟨5, 3, .uneven⟩] := by
  have lone : ∀ t ∈ margins, t.channel = 0 → 0 ≤ t.type → t.line ∉ [1, 1, 2, 2] → t.line = 5 ∧ t.column = 3 := by
    decide
  have least : ∀ t ∈ margins, t.channel = 0 → 0 ≤ t.type → t.line = 5 → 3 ≤ t.column := by decide
  have starts : StartsAt margined 5 3 := by
    refine ⟨⟨⟨"y", 5, 3, 0, 0⟩, mem_tokens_margined.2 (by decide), by decide⟩, ?_⟩
    rintro c ⟨t, member, channel, type, level, rfl⟩
    exact least t (mem_tokens_margined.1 member) channel type level
  refine eq_singleton_of_rising (unevenOutside_rising _) (mem_unevenOutside.2 ⟨starts, by decide, rfl, by decide⟩) ?_
  rintro ⟨line, column, cause⟩ member
  obtain ⟨⟨⟨t, inside, channel, type, rfl, rfl⟩, _⟩, _, rfl, outside⟩ := mem_unevenOutside.1 member
  obtain ⟨level, stands⟩ := lone t (mem_tokens_margined.1 inside) channel type outside
  rw [level, stands]

theorem check_partition_tangled :
    ∃ (s : State) (strays uneven : List Diagnostic),
      Tree.ofEntries tangled (some margins) = .ok margined ∧ (margined.node margined.root).kind = .sourceUnit ∧
      (Checker.mk .fallback {}).check margined {} = .ok () s ∧ s.diagnostics .fallback = strays ++ uneven ∧
      strays =
        [⟨1, 2, "indent", "Expected indentation of 0 spaces but found 2", .error⟩,
          ⟨1, 2, "indent", "Expected indentation of 0 spaces but found 2", .error⟩,
          ⟨2, 3, "indent", "Expected indentation of 4 spaces but found 3", .error⟩,
          ⟨2, 3, "indent", "Expected indentation of 4 spaces but found 3", .error⟩] ∧
      uneven = [⟨5, 3, "indent", "Indentation is incorrect", .error⟩] := by
  have unit : (margined.node margined.root).kind = .sourceUnit := by decide +kernel
  have only := Tree.only_root_of_entries accepted_margined (by decide)
  obtain ⟨s, strays, uneven, checked, found, expected, rising, lines, _⟩ := check_partition margined unit only .fallback {}
  obtain ⟨next, run, adds⟩ := (Checker.mk .fallback {}).check_midway margined
  cases run.symm.trans checked
  have passed : ((Checker.mk .fallback {}).midway margined margined.walk.dropLast).findings =
      [⟨1, 2, .misplaced 0⟩, ⟨1, 2, .misplaced 0⟩, ⟨2, 3, .misplaced 4⟩, ⟨2, 3, .misplaced 4⟩] := by decide +kernel
  have flagged : ((Checker.mk .fallback {}).midway margined margined.walk.dropLast).flaggedLines = [1, 1, 2, 2] := by
    decide +kernel
  have findings := adds.findings
  rw [passed, flagged, if_pos unit, uneven_margined] at findings
  have named : s.diagnostics .fallback =
      [⟨1, 2, "indent", "Expected indentation of 0 spaces but found 2", .error⟩,
        ⟨1, 2, "indent", "Expected indentation of 0 spaces but found 2", .error⟩,
        ⟨2, 3, "indent", "Expected indentation of 4 spaces but found 3", .error⟩,
        ⟨2, 3, "indent", "Expected indentation of 4 spaces but found 3", .error⟩] ++
      [⟨5, 3, "indent", "Indentation is incorrect", .error⟩] := by
    rw [State.diagnostics, findings]
    decide +kernel
  have split := found.symm.trans named
  have last : uneven = [⟨5, 3, "indent", "Indentation is incorrect", .error⟩] := by
    apply eq_singleton_of_rising rising
    · have member : (⟨5, 3, "indent", "Indentation is incorrect", .error⟩ : Diagnostic) ∈ strays ++ uneven := by
        rw [split]
        exact List.mem_append_right _ List.mem_cons_self
      rcases List.mem_append.1 member with stray | inside
      · obtain ⟨required, message⟩ := expected _ stray
        have start := congrArg (fun text => text.toList.head?) message
        simp [String.toList_append] at start
      · exact inside
    · intro d member
      obtain ⟨line, column, _, _, _, rfl⟩ := (lines d).1 member
      have among := split ▸ List.mem_append_right strays member
      simpa using among
  rw [last] at split
  exact ⟨s, strays, uneven, accepted_margined, unit, checked, found, List.append_cancel_right split, last⟩

end Indentation.Check.Checker
