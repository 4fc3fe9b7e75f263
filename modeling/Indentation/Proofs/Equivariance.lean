import Indentation.Proofs.Stretching

/-! What a check does not depend on. Blank lines may be put in or taken out: line numbers are
only compared, so every finding follows its line. Everything may be set wider: columns are
only added, subtracted and divided by the step, so if they and the step grow by one factor,
every column that is found or asked for grows by it too. -/

namespace Indentation

namespace Tree

section Acceptance

variable (line : Int → Int) (column : Int → Int → Int) (row : Array Entry)

private theorem parentFlaw?_relaid (entry : Entry) :
    parentFlaw? (row.map (Entry.relaid line column)) (entry.relaid line column) = parentFlaw? row entry := by
  unfold parentFlaw?
  rw [Array.size_map]
  rfl

private theorem childFlaw?_relaid (entry : Entry) :
    childFlaw? (row.map (Entry.relaid line column)) (entry.relaid line column) = childFlaw? row entry := by
  funext child
  have named : namedParent? (row.map (Entry.relaid line column)) child = namedParent? row child := by
    unfold namedParent? place?
    by_cases inside : 0 ≤ child ∧ child.toNat < row.size
    · simp [inside, Entry.relaid]
    · simp [inside]
  unfold childFlaw?
  rw [named]
  rfl

variable {row}

theorem flawless_relaid (flawless : flaw? row = none) : flaw? (row.map (Entry.relaid line column)) = none := by
  have clean : ∀ position, entryFlaw? (row.map (Entry.relaid line column)) position = none := by
    intro position
    have inside : position.val < row.size := by simpa using position.isLt
    have old := flawless_entry flawless ⟨position.val, inside⟩
    unfold entryFlaw? at old ⊢
    simp only [Fin.getElem_fin, Array.getElem_map, parentFlaw?_relaid, childFlaw?_relaid] at old ⊢
    exact old
  have inside := size_pos_of_flawless flawless
  have free : ¬ row[0].parent.isSome := by
    intro found
    simp [flaw?, inside, found] at flawless
  have first : ¬ (row[0].relaid line column).parent.isSome := free
  simp only [flaw?, Array.size_map, inside, ↓reduceDIte, Array.getElem_map, first, Bool.false_eq_true, ↓reduceIte]
  exact List.findSome?_eq_none_iff.2 fun position _ => clean position

end Acceptance

variable {entries : List Entry} {tokens : Option (List Token)} {tree : Tree}

theorem ofEntries_stretched (w : Stretch) (accepted : ofEntries entries tokens = .ok tree) :
    ofEntries (entries.map (Entry.relaid w.line w.column)) (tokens.map (List.map (Token.relaid w.line w.column))) =
      .ok (tree.stretched w) := by
  have holds := holds_of_accepted accepted
  have flawless : flaw? (entries.map (Entry.relaid w.line w.column)).toArray = none := by
    rw [← List.map_toArray]
    exact flawless_relaid w.line w.column holds.flawless
  obtain ⟨wide, again⟩ : ∃ wide, ofEntries (entries.map (Entry.relaid w.line w.column))
      (tokens.map (List.map (Token.relaid w.line w.column))) = .ok wide := exists_ofEntries flawless
  have anew := holds_of_accepted again
  have given : (tokens.map (List.map (Token.relaid w.line w.column))).getD
        ((entries.map (Entry.relaid w.line w.column)).filterMap (·.token)) =
      (tokens.getD (entries.filterMap (·.token))).map (Token.relaid w.line w.column) := by
    cases tokens with
    | some tokens => rfl
    | none =>
      rw [Option.map_none, Option.getD_none, Option.getD_none, List.filterMap_map, List.map_filterMap]
      rfl
  have sorted : wide.tokens = tree.tokens.map (Token.relaid w.line w.column) := by
    rw [anew.tokens, holds.tokens, given, List.map_mergeSort]
    intro a _ b _
    exact (Token.before_stretched w a b).symm
  rw [again, holds.eq_relaid anew, sorted]

end Tree

section Unwidened

variable {w : Stretch} (unwidened : w.factor = 1)
include unwidened

theorem Correction.stretched_of_unwidened (c : Correction) : c.stretched w = c := by
  rw [Correction.stretched, unwidened, Int.one_mul, Int.one_mul]

theorem Finding.stretched_of_unwidened (finding : Finding) :
    finding.stretched w = { finding with line := w.line finding.line } := by
  obtain ⟨line, column, cause⟩ := finding
  cases cause <;> simp [Finding.stretched, unwidened]

end Unwidened

/-- The same diagnostic with every column in it multiplied. -/
inductive Diagnostic.Scaled (factor : Int) : Diagnostic → Diagnostic → Prop where
  | expected (line column required : Int) :
      Scaled factor
        ⟨line, column, "indent",
          "Expected indentation of " ++ toString required ++ " " ++ "spaces" ++ " but found " ++ toString column, .error⟩
        ⟨line, factor * column, "indent",
          "Expected indentation of " ++ toString (factor * required) ++ " " ++ "spaces" ++ " but found " ++
            toString (factor * column), .error⟩
  | uneven (line column : Int) :
      Scaled factor ⟨line, column, "indent", "Indentation is incorrect", .error⟩
        ⟨line, factor * column, "indent", "Indentation is incorrect", .error⟩

namespace Check.Checker

theorem plain_of_checked {checker : Checker} {tree : Tree} {s : State} (checked : checker.check tree {} = .ok () s) :
    ∀ finding ∈ s.findings, finding.cause = .uneven ∨ ∃ required, finding.cause = .misplaced required := by
  obtain ⟨findings, _, _, _, adds, balanced⟩ := check_accountable checker tree {}
  have found : s.findings = findings := by
    have added := adds.findings
    rw [Step.ends, checked] at added
    exact added
  rw [found]
  exact balanced.plain

variable {entries : List Entry} {tokens : Option (List Token)} {tree : Tree}

/-- Lines may be moved apart: the findings go with them, and all else stays. -/
theorem check_relined (accepted : Tree.ofEntries entries tokens = .ok tree) (line : Int → Int)
    (rising : ∀ {a b : Int}, a < b → line a < line b) (options : Options) (profile : Profile) :
    ∃ (apart : Tree) (s t : State),
      Tree.ofEntries (entries.map (Entry.relaid line fun _ column => column))
        (tokens.map (List.map (Token.relaid line fun _ column => column))) = .ok apart ∧
      (Checker.mk options profile).check tree {} = .ok () s ∧
      (Checker.mk options profile).check apart {} = .ok () t ∧
      t.diagnostics options = (s.diagnostics options).map (fun d => { d with line := line d.line }) ∧
      t.corrections = s.corrections ∧
      t.bodyLines = s.bodyLines.map line ∧ t.memberLines = s.memberLines.map line := by
  let w : Stretch := ⟨line, 1, rising, Int.one_pos⟩
  have columns : w.column = fun _ column => column := by
    funext _ column
    exact Int.one_mul column
  have moved := Tree.ofEntries_stretched w accepted
  rw [columns] at moved
  have widened : Widened w ⟨options, profile⟩ ⟨options, profile⟩ := ⟨rfl, (Int.one_mul _).symm⟩
  obtain ⟨s, checked, again⟩ := check_stretched widened tree {}
  refine ⟨_, s, _, moved, checked, again, ?_, ?_, rfl, rfl⟩
  · rw [State.diagnostics, State.diagnostics, State.stretched, List.map_map, List.map_map]
    apply List.map_congr_left
    intro finding _
    rw [Function.comp_apply, Finding.stretched_of_unwidened rfl]
    rfl
  · have same : (fun entry : Key × Correction => (entry.1, entry.2.stretched w)) = id := by
      funext entry
      rw [Correction.stretched_of_unwidened rfl]
      rfl
    rw [State.stretched, Corrections.stretched, same, List.map_id]

/-- Two blank lines after the first line. -/
def loosened (line : Int) : Int := if line ≤ 1 then line else line + 2

theorem check_relined_tangled :
    ∃ (tree apart : Tree) (s t : State),
      Tree.ofEntries tangled (some margins) = .ok tree ∧
      Tree.ofEntries (tangled.map (Entry.relaid loosened fun _ column => column))
        (some (margins.map (Token.relaid loosened fun _ column => column))) = .ok apart ∧
      (Checker.mk .fallback {}).check tree {} = .ok () s ∧ (Checker.mk .fallback {}).check apart {} = .ok () t ∧
      t.diagnostics .fallback = (s.diagnostics .fallback).map (fun d => { d with line := loosened d.line }) ∧
      t.corrections = s.corrections ∧
      t.bodyLines = s.bodyLines.map loosened ∧ t.memberLines = s.memberLines.map loosened := by
  obtain ⟨tree, accepted⟩ : ∃ tree, Tree.ofEntries tangled (some margins) = .ok tree :=
    Tree.exists_ofEntries (by decide)
  have rising : ∀ {a b : Int}, a < b → loosened a < loosened b := by
    intro a b less
    unfold loosened
    split <;> split <;> omega
  obtain ⟨apart, s, t, again, results⟩ := check_relined accepted loosened rising .fallback {}
  exact ⟨tree, apart, s, t, accepted, again, results⟩

/-- Everything may be set wider by a factor: every column that is found or asked for is
multiplied by it, and all else stays. -/
theorem check_scaled (accepted : Tree.ofEntries entries tokens = .ok tree) (profile : Profile) (size factor : Int)
    (some_size : 0 < size) (some_factor : 0 < factor) :
    ∃ (wide : Tree) (s t : State),
      Tree.ofEntries (entries.map (Entry.relaid id fun _ column => factor * column))
        (tokens.map (List.map (Token.relaid id fun _ column => factor * column))) = .ok wide ∧
      (Checker.mk ⟨size, .spaces, some_size⟩ profile).check tree {} = .ok () s ∧
      (Checker.mk ⟨factor * size, .spaces, Int.mul_pos some_factor some_size⟩ profile).check wide {} = .ok () t ∧
      List.Forall₂ (Diagnostic.Scaled factor) (s.diagnostics ⟨size, .spaces, some_size⟩)
        (t.diagnostics ⟨factor * size, .spaces, Int.mul_pos some_factor some_size⟩) ∧
      t.bodyLines = s.bodyLines ∧ t.memberLines = s.memberLines ∧
      t.corrections = s.corrections.map fun (key, c) => (key, ⟨factor * c.observed, factor * c.expected⟩) := by
  let w : Stretch := ⟨id, factor, id, some_factor⟩
  have widened : Widened w ⟨⟨size, .spaces, some_size⟩, profile⟩
      ⟨⟨factor * size, .spaces, Int.mul_pos some_factor some_size⟩, profile⟩ := ⟨rfl, rfl⟩
  obtain ⟨s, checked, again⟩ := check_stretched widened tree {}
  refine ⟨_, s, _, Tree.ofEntries_stretched w accepted, checked, again, ?_, List.map_id _, List.map_id _, rfl⟩
  rw [State.diagnostics, State.diagnostics, State.stretched, List.map_map, List.forall₂_map_left_iff,
    List.forall₂_map_right_iff, List.forall₂_same]
  intro finding member
  obtain ⟨line, column, cause⟩ := finding
  obtain rfl | ⟨required, rfl⟩ := plain_of_checked checked _ member
  · exact .uneven line column
  · exact .expected line column required

theorem check_scaled_tangled :
    ∃ (tree wide : Tree) (s t : State),
      Tree.ofEntries tangled (some margins) = .ok tree ∧
      Tree.ofEntries (tangled.map (Entry.relaid id fun _ column => 3 * column))
        (some (margins.map (Token.relaid id fun _ column => 3 * column))) = .ok wide ∧
      (Checker.mk ⟨2, .spaces, by decide⟩ {}).check tree {} = .ok () s ∧
      (Checker.mk ⟨3 * 2, .spaces, by decide⟩ {}).check wide {} = .ok () t ∧
      List.Forall₂ (Diagnostic.Scaled 3) (s.diagnostics ⟨2, .spaces, by decide⟩)
        (t.diagnostics ⟨3 * 2, .spaces, by decide⟩) ∧
      t.bodyLines = s.bodyLines ∧ t.memberLines = s.memberLines ∧
      t.corrections = s.corrections.map fun (key, c) => (key, ⟨3 * c.observed, 3 * c.expected⟩) := by
  obtain ⟨tree, accepted⟩ : ∃ tree, Tree.ofEntries tangled (some margins) = .ok tree :=
    Tree.exists_ofEntries (by decide)
  obtain ⟨wide, s, t, again, results⟩ := check_scaled accepted {} 2 3 (by decide) (by decide)
  exact ⟨tree, wide, s, t, accepted, again, results⟩

end Check.Checker
end Indentation
