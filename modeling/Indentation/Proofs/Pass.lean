import Indentation.Proofs.Entering

/-! The pass over a tree finds what the recursion over required columns says. Corrections
are recorded when a parent is entered, and a rule reads only those of nodes up to the one
it is for. The walk goes by number, so what a rule reads has been recorded in full, and
nothing recorded later can change it. -/

namespace Indentation.Check.Checker

variable (checker : Checker) {tree : Tree}

section Lookup

variable (preorder : Tree.Preorder tree)

def correction? (i : tree.Id) : Option Correction :=
  ((checker.required preorder i).filter (· ≠ (tree.node i).column)).map (⟨(tree.node i).column, ·⟩)

/-- The table holds the final corrections of all nodes up to a number. -/
def Knows (bound : Nat) (table : Corrections) : Prop :=
  ∀ i : tree.Id, i.val ≤ bound → Corrections.of? table i.val = checker.correction? preorder i

variable {checker preorder}

private theorem correctionWithin_eq {bound fuel : Nat} {table : Corrections}
    (knows : checker.Knows preorder bound table) (line : Int) {i : tree.Id} (inside : i.val ≤ bound)
    (enough : i.val < fuel) :
    tree.correctionWithin table line fuel i =
      (checker.nearest preorder line i).map fun (m, column) => ⟨(tree.node m).column, column⟩ := by
  induction fuel generalizing i with
  | zero => omega
  | succ fuel ih =>
    rw [Tree.correctionWithin, knows i inside, nearest, correction?]
    cases (checker.required preorder i).filter (· ≠ (tree.node i).column) with
    | some column => rfl
    | none =>
      simp only [Option.map_none]
      split
      next missing =>
        rw [missing]
        rfl
      next p named =>
        have earlier : p.val < i.val := preorder.parent_lt named
        rw [named]
        dsimp only
        split
        · exact ih (by omega) (by omega)
        · rfl

theorem Knows.indentOf {bound : Nat} {table : Corrections} (knows : checker.Knows preorder bound table)
    {i : tree.Id} (inside : i.val ≤ bound) : tree.indentOf table i = checker.settled preorder i := by
  rw [Tree.indentOf, settled, correctionWithin_eq knows _ inside i.isLt]
  cases checker.nearest preorder (tree.node i).line i with
  | none => rfl
  | some found => rfl

end Lookup

section Entering

variable (preorder : Tree.Preorder tree) {s : State} {i : tree.Id}

theorem nodup_children (preorder : Tree.Preorder tree) (i : tree.Id) : (tree.node i).children.Nodup :=
  (preorder.rising i).imp fun earlier => Fin.ne_of_lt earlier

theorem nodup_slots (preorder : Tree.Preorder tree) (apart : checker.profile.ifThen ≠ checker.profile.ifElse)
    (i : tree.Id) : ((checker.slots tree i).filterMap (child? tree i)).Nodup := by
  have single : ∀ position : Int, ([position].filterMap (child? tree i)).Nodup := by
    intro position
    cases found : child? tree i position <;> simp [found]
  unfold slots
  split
  · cases first : child? tree i checker.profile.ifThen with
    | none => simpa [first] using single _
    | some c =>
      cases second : child? tree i checker.profile.ifElse with
      | none => simp [first, second]
      | some d =>
        simp only [child?, Int.natCast_nonneg, not_lt_of_ge, ↓reduceIte, Int.toNat_natCast] at first second
        have other : c ≠ d := by
          rintro rfl
          have inside := (List.getElem?_eq_some_iff.1 first).1
          exact apart ((List.getElem?_inj inside (nodup_children preorder i)).1 (first.trans second.symm))
        simp [child?, first, second, other]
  · exact single _
  · exact single _
  · exact single _
  · exact List.nodup_nil

theorem nodup_checked (preorder : Tree.Preorder tree) (apart : checker.profile.ifThen ≠ checker.profile.ifElse)
    (i : tree.Id) : (checker.checked tree i).Nodup := by
  have distinct := nodup_children preorder i
  by_cases unit : (tree.node i).kind = .sourceUnit
  · rw [checked_sourceUnit unit]
    exact distinct.filter _
  · by_cases braced : (tree.node i).kind.hasBraces
    · rw [checked_braces braced]
      split
      · exact distinct.sublist (members_sublist i)
      · exact List.nodup_nil
    · rw [checked_bodies (checksBodies_iff.2 ⟨unit, braced⟩)]
      exact (checker.nodup_slots preorder apart i).filter _

def AddsAt (i : tree.Id) (s next : State) : Prop :=
  Adds s next (checker.findingsAt preorder i) (checker.correctionsAt preorder i) (checker.bodyLinesAt preorder i)
    (checker.memberLinesAt preorder i)

section Known

variable {checker preorder} {table : Corrections} (knows : checker.Knows preorder i.val table)
include knows

theorem Knows.baseUnder : checker.baseUnder table i = checker.base preorder i := by
  unfold Checker.baseUnder
  split
  next unit => rw [base_sourceUnit preorder unit]
  next other =>
    split
    next braced => rw [base_braces preorder braced, knows.indentOf (preorder.anchorOf_le i)]
    next bare =>
      have checks := checksBodies_iff.2 ⟨other, bare⟩
      unfold requiredBody
      cases named : (tree.node i).parent with
      | none =>
        rw [base_parentless preorder checks named]
        exact Int.zero_add _
      | some p =>
        have earlier : p.val < i.val := preorder.parent_lt named
        rw [base_bodies preorder checks named, ← knows.indentOf (Nat.le_of_lt earlier)]

theorem Knows.misplacedUnder : checker.misplacedUnder table i = checker.misplaced preorder i := by
  unfold Checker.misplacedUnder
  rw [knows.baseUnder]
  rfl

theorem Knows.findingsUnder : checker.findingsUnder table i = checker.findingsAt preorder i := by
  unfold Checker.findingsUnder misplacedEndUnder
  rw [knows.misplacedUnder, knows.baseUnder, knows.indentOf (preorder.anchorOf_le i)]
  rfl

end Known

/-- Entering a node when the nodes up to it are known and its children are not corrected. -/
theorem enter_adds (apart : checker.profile.ifThen ≠ checker.profile.ifElse)
    (knows : checker.Knows preorder i.val s.corrections) (fresh : ∀ c ∈ (tree.node i).children, Fresh s c) :
    checker.AddsAt preorder i s (checker.after tree s ⟨.enter, i⟩) := by
  obtain ⟨_, reached⟩ := preorder.reached i
  have entered : Entered checker i s (checker.after tree s ⟨.enter, i⟩) := entered_of_reached reached s
  have flags := entered.flags
  have corrections := entered.corrections
  have distinct : (checker.misplaced preorder i).Nodup := (checker.nodup_checked preorder apart i).filter _
  rw [knows.misplacedUnder, knows.baseUnder, recordAll_of_fresh distinct] at corrections
  · unfold bodyLinesUnder memberLinesUnder at flags
    rw [knows.findingsUnder] at flags
    exact ⟨flags.findings, corrections, flags.bodyLines, flags.memberLines⟩
  · intro c member
    exact fresh c (checker.mem_children_of_checked (List.mem_of_mem_filter member))

end Entering

section Running

variable (preorder : Tree.Preorder tree)

/-- The state when a list of nodes has been entered. -/
def Follows (done : List tree.Id) (s : State) : Prop :=
  Adds {} s (done.flatMap (checker.findingsAt preorder)) (done.flatMap (checker.correctionsAt preorder))
    (done.flatMap (checker.bodyLinesAt preorder)) (done.flatMap (checker.memberLinesAt preorder))

theorem correction?_eq {i p : tree.Id} (named : (tree.node i).parent = some p) :
    checker.correction? preorder i =
      if i ∈ checker.misplaced preorder p then some ⟨(tree.node i).column, checker.base preorder p⟩ else none := by
  have column : checker.required preorder i =
      if i ∈ checker.checked tree p then some (checker.base preorder p) else none := by
    rw [required]
    split
    next missing => cases named.symm.trans missing
    next q other =>
      cases named.symm.trans other
      rfl
  rw [correction?, column]
  by_cases checked : i ∈ checker.checked tree p
  · by_cases same : (tree.node i).column = checker.base preorder p
    · simp [misplaced, checked, same, Option.filter]
    · simp [misplaced, checked, same, Ne.symm same, Option.filter]
  · simp [misplaced, checked]

theorem of?_correctionsAt (p i : tree.Id) :
    Corrections.of? (checker.correctionsAt preorder p) i.val =
      if (tree.node i).parent = some p then checker.correction? preorder i else none := by
  unfold correctionsAt
  rw [of?_corrections]
  by_cases named : (tree.node i).parent = some p
  · rw [if_pos named, checker.correction?_eq preorder named]
  · have absent : i ∉ checker.misplaced preorder p := fun member =>
      named (tree.linked (checker.mem_children_of_checked (List.mem_of_mem_filter member)))
    rw [if_neg absent, if_neg named]

/-- The table holds the corrections of those nodes whose parents have been entered. -/
theorem of?_recorded (done : List tree.Id) (i : tree.Id) :
    Corrections.of? (done.flatMap (checker.correctionsAt preorder)) i.val =
      if ∃ p ∈ done, (tree.node i).parent = some p then checker.correction? preorder i else none := by
  induction done with
  | nil => simp [Corrections.of?, Table.find?]
  | cons q rest ih =>
    rw [List.flatMap_cons, of?_append, ih, of?_correctionsAt]
    by_cases named : (tree.node i).parent = some q
    · have entered : ∃ p ∈ q :: rest, (tree.node i).parent = some p := ⟨q, List.mem_cons_self, named⟩
      rw [if_pos named, if_pos entered]
      split
      · exact Option.or_self
      · exact Option.or_none
    · have same : (∃ p ∈ q :: rest, (tree.node i).parent = some p) ↔ ∃ p ∈ rest, (tree.node i).parent = some p := by
        simp [named]
      rw [if_neg named, Option.none_or]
      simp only [same]

theorem correction?_of_parentless {i : tree.Id} (missing : (tree.node i).parent = none) :
    checker.correction? preorder i = none := by
  have column : checker.required preorder i = none := by
    rw [required]
    split
    next => rfl
    next named => cases missing.symm.trans named
  rw [correction?, column]
  rfl

theorem Follows.enter (apart : checker.profile.ifThen ≠ checker.profile.ifElse) {done : List tree.Id} {s : State}
    {i : tree.Id} (follows : checker.Follows preorder done s) (before : ∀ j, j ∈ done ↔ j < i) :
    checker.Follows preorder (done ++ [i]) (checker.after tree s ⟨.enter, i⟩) := by
  have table : s.corrections = done.flatMap (checker.correctionsAt preorder) := by
    simpa using follows.corrections
  have knows : checker.Knows preorder i.val s.corrections := by
    intro j inside
    rw [table, of?_recorded]
    split
    · rfl
    next missing =>
      cases named : (tree.node j).parent with
      | none => exact (checker.correction?_of_parentless preorder named).symm
      | some p =>
        have earlier : p.val < j.val := preorder.parent_lt named
        exact absurd ⟨p, (before p).2 (Fin.lt_def.2 (by omega)), named⟩ missing
  have fresh : ∀ c ∈ (tree.node i).children, Fresh s c := by
    intro c listed
    unfold Fresh
    rw [table, of?_recorded, if_neg]
    rintro ⟨p, member, named⟩
    cases (tree.linked listed).symm.trans named
    exact absurd ((before i).1 member) (Fin.lt_irrefl i)
  have adds := Adds.trans follows (checker.enter_adds preorder apart knows fresh)
  simpa only [Follows, List.flatMap_append, List.flatMap_singleton] using adds

theorem mem_iff_lt {n : Nat} {done rest : List (Fin n)} {i : Fin n}
    (split : List.finRange n = done ++ i :: rest) (j : Fin n) : j ∈ done ↔ j < i := by
  have rising := List.pairwise_lt_finRange n
  rw [split] at rising
  obtain ⟨_, later, between⟩ := List.pairwise_append.1 rising
  constructor
  · intro member
    exact between j member i List.mem_cons_self
  · intro less
    have everywhere := List.mem_finRange j
    rw [split, List.mem_append, List.mem_cons] at everywhere
    rcases everywhere with member | same | member
    · exact member
    · exact absurd less (same ▸ Fin.lt_irrefl i)
    · exact absurd (List.rel_of_pairwise_cons later member) (Fin.not_lt.2 (Fin.le_of_lt less))

/-- A run of visits in the order of the numbers. -/
theorem Follows.visits (apart : checker.profile.ifThen ≠ checker.profile.ifElse) (visits : List tree.Visit)
    {done rest : List tree.Id} {s : State} (follows : checker.Follows preorder done s)
    (order : List.finRange tree.size = done ++ visits.filterMap Tree.Visit.entered? ++ rest)
    (others : ∀ visit ∈ visits, visit.phase = .exit → (tree.node visit.node).kind ≠ .sourceUnit) :
    checker.Follows preorder (done ++ visits.filterMap Tree.Visit.entered?) (visits.foldl (checker.after tree) s) := by
  induction visits generalizing done s with
  | nil => simpa using follows
  | cons visit later ih =>
    obtain ⟨phase, i⟩ := visit
    have remaining := fun visit member => others visit (List.mem_cons_of_mem _ member)
    cases phase with
    | exit =>
      rw [List.foldl_cons, checker.after_exit (others _ List.mem_cons_self rfl)]
      exact ih follows order remaining
    | enter =>
      have entered : List.filterMap Tree.Visit.entered? (⟨.enter, i⟩ :: later) =
          i :: later.filterMap Tree.Visit.entered? := rfl
      rw [entered] at order ⊢
      have before := mem_iff_lt (order.trans (List.append_assoc _ _ _))
      have next := ih (Follows.enter checker preorder apart follows before) (by simpa using order) remaining
      simpa using next

end Running

end Indentation.Check.Checker
