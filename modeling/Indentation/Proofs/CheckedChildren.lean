import Indentation.Proofs.Required

/-! The children that the rules go over. A rule looks for braces by searching the children for
their positions, and for a governed statement by the number of its slot. What it then goes over
are the children of which a column is required, in the same order. -/

namespace Indentation

namespace Tree

variable {tree : Tree} {i : tree.Id}

theorem firstAt_iff {text : String} {position : Nat} :
    tree.FirstAt i text position ↔
      (tree.node i).children.findIdx? (fun c => (tree.node c).text = text) = some position := by
  rw [List.findIdx?_eq_some_iff_getElem, FirstAt]
  constructor
  · rintro ⟨⟨c, found, here⟩, before⟩
    obtain ⟨inside, rfl⟩ := List.getElem?_eq_some_iff.1 found
    refine ⟨inside, decide_eq_true here, fun earlier less => ?_⟩
    simpa using before earlier less _ (List.getElem?_eq_getElem (by omega))
  · rintro ⟨inside, here, before⟩
    refine ⟨⟨_, List.getElem?_eq_getElem inside, of_decide_eq_true here⟩, ?_⟩
    intro earlier less c found
    obtain ⟨_, rfl⟩ := List.getElem?_eq_some_iff.1 found
    simpa using before earlier less

theorem opening?_eq_some {position : Nat} : tree.opening? i = some position ↔ tree.FirstAt i "\x7b" position :=
  firstAt_iff.symm

theorem closing?_eq_some {position : Nat} : tree.closing? i = some position ↔ tree.FirstAt i "\x7d" position :=
  firstAt_iff.symm

theorem between_iff {position : Nat} :
    tree.Between i position ↔ ∃ opening closing, tree.opening? i = some opening ∧ tree.closing? i = some closing ∧
      opening < position ∧ position < closing := by
  simp only [opening?_eq_some, closing?_eq_some]
  constructor
  · rintro ⟨⟨opening, after, opens⟩, closing, _, before, closes⟩
    exact ⟨opening, closing, opens, closes, after, before⟩
  · rintro ⟨opening, closing, opens, closes, after, before⟩
    exact ⟨⟨opening, after, opens⟩, closing, (List.findIdx?_eq_some_iff_getElem.1 (firstAt_iff.1 closes)).1, before, closes⟩

/-- The items of a row strictly between two positions, chosen by their positions or cut out. -/
private theorem map_filter_zipIdx {α : Type} (keep : α → Bool) (opening closing start : Nat) (items : List α) :
    ((items.zipIdx start).filter fun (item, position) =>
        keep item && decide (opening < position ∧ position < closing)).map (·.1) =
      ((items.take (closing - start)).drop (opening + 1 - start)).filter keep := by
  induction items generalizing start with
  | nil => simp
  | cons item rest ih =>
    rw [List.zipIdx_cons, List.filter_cons]
    have later := ih (start + 1)
    by_cases early : closing ≤ start
    · have all : closing - start = 0 ∧ closing - (start + 1) = 0 := by omega
      have outside : ¬ (opening < start ∧ start < closing) := by omega
      rw [all.2] at later
      simpa [all.1, outside] using later
    · obtain ⟨more, length⟩ : ∃ more, closing - start = more + 1 ∧ closing - (start + 1) = more :=
        ⟨closing - (start + 1), by omega, rfl⟩
      by_cases inside : opening < start
      · have nothing : opening + 1 - start = 0 ∧ opening + 1 - (start + 1) = 0 := by omega
        rw [length.2, nothing.2, List.drop_zero] at later
        have within : start < closing := by omega
        rw [length.1, nothing.1, List.take_succ_cons, List.drop_zero, List.filter_cons]
        cases kept : keep item <;> simpa [kept, inside, within] using later
      · obtain ⟨before, dropped⟩ : ∃ before, opening + 1 - start = before + 1 ∧ opening + 1 - (start + 1) = before :=
          ⟨opening + 1 - (start + 1), by omega, rfl⟩
        rw [length.2, dropped.2] at later
        rw [length.1, dropped.1, List.take_succ_cons, List.drop_succ_cons]
        simpa [inside] using later

/-- What the rule for braces goes over are the nested elements of the body. -/
theorem nested_eq_members (long : (tree.ending? i).isSome) : tree.nested i = tree.members i := by
  rw [nested, if_pos long]
  have same : ∀ c, (tree.node c).token.isNone = !(tree.node c).isTerminal := by
    intro c
    simp [Node.isTerminal]
  unfold members
  split
  next opening closing opens closes =>
    have between : ∀ position, decide (tree.Between i position) = decide (opening < position ∧ position < closing) := by
      intro position
      rw [decide_eq_decide, between_iff]
      simp [opens, closes]
    simp only [same, between]
    exact map_filter_zipIdx (fun c => !(tree.node c).isTerminal) opening closing 0 _
  next missing =>
    rw [List.map_eq_nil_iff, List.filter_eq_nil_iff]
    rintro ⟨c, position⟩ _ kept
    obtain ⟨opening, closing, opens, closes, _⟩ :=
      between_iff.1 (of_decide_eq_true (Bool.and_eq_true_iff.1 kept).2)
    exact missing _ _ opens closes

/-- The braces that the rule compares are the first opening brace and the last child. -/
theorem ending?_eq_braces : tree.ending? i =
    match tree.braces? i with
    | none => none
    | some (first, last) => if (tree.node first).line = (tree.node last).line then none else some last := by
  have opens : (tree.node i).children.find? (fun c => (tree.node c).text = "\x7b") =
      (tree.opening? i).bind ((tree.node i).children[·]?) := List.find?_eq_bind_findIdx?_getElem?
  rw [ending?, braces?, opens]
  cases tree.opening? i with
  | none => rfl
  | some position =>
    cases first : (tree.node i).children[position]? with
    | none => simp [first]
    | some start => cases last : (tree.node i).children.getLast? <;> simp [first]

end Tree

namespace Check.Checker

variable (checker : Checker) {tree : Tree} {i : tree.Id}

/-- The positions of the statements that a node controls. -/
def slots (tree : Tree) (i : tree.Id) : List Int :=
  match (tree.node i).kind with
  | .ifStatement => [checker.profile.ifThen, checker.profile.ifElse]
  | .whileStatement => [checker.profile.whileBody]
  | .doWhileStatement => [checker.profile.doWhileBody]
  | .forStatement => [(tree.node i).children.length - 1]
  | _ => []

theorem child?_natCast (position : Nat) : child? tree i position = (tree.node i).children[position]? := by
  simp [child?, Int.not_lt.2 (Int.natCast_nonneg position)]

theorem child?_last : child? tree i ((tree.node i).children.length - 1) = (tree.node i).children.getLast? := by
  rw [List.getLast?_eq_getElem?, child?]
  cases (tree.node i).children with
  | nil => rfl
  | cons first rest => simp

theorem governed_eq_slots : checker.governed tree i = (checker.slots tree i).filterMap (child? tree i) := by
  have single : ∀ position, [position].filterMap (child? tree i) = (child? tree i position).toList := by
    intro position
    cases found : child? tree i position <;> simp [found]
  unfold governed slots
  cases (tree.node i).kind <;> simp only [single, child?_natCast, child?_last, List.filterMap_nil]
  case ifStatement =>
    simp only [List.filterMap_cons, List.filterMap_nil, child?_natCast]

theorem goesBy_eq_controlledKind (body : tree.Id) : tree.goesBy body = controlledKind tree body := by
  unfold Tree.goesBy controlledKind
  dsimp only
  cases (tree.node body).kind <;> cases (tree.node body).children <;> rfl

theorem isLoose_eq (body : tree.Id) :
    isLoose tree i body = (!hasOwnRule (controlledKind tree body) && (tree.node body).line ≠ (tree.node i).line) := by
  simp [isLoose, hasOwnRule, goesBy_eq_controlledKind]

variable {checker}

theorem checked_sourceUnit (unit : (tree.node i).kind = .sourceUnit) :
    checker.checked tree i = (tree.node i).children.filter fun c => (tree.node c).text ≠ "<EOF>" := by
  rw [checked, if_pos unit]

theorem checked_braces (braced : (tree.node i).kind.hasBraces) :
    checker.checked tree i = if (tree.ending? i).isSome then tree.members i else [] := by
  rw [checked_nested braced]
  split
  next long => exact Tree.nested_eq_members long
  next short => rw [Tree.nested, if_neg short]

theorem checked_bodies (checks : checksBodies tree i) :
    checker.checked tree i = ((checker.slots tree i).filterMap (child? tree i)).filter (isLoose tree i) := by
  obtain ⟨other, bare⟩ := checksBodies_iff.1 checks
  rw [checked, if_neg other, if_neg bare, governed_eq_slots]

end Check.Checker
end Indentation
