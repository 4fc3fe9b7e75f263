import Indentation.Proofs.Foremost
import Indentation.Proofs.Settling

/-! Bodies with and without braces. Members of a body in braces are measured from the first
node of the line, and a body without braces from the statement around the construct that
controls it. Both belong in the same column if the construct comes first on its line, for
then no node between the construct and its anchor is measured at all. If something stands
before the construct, a body without braces belongs further to the right. -/

namespace Indentation

namespace Tree

variable {tree : Tree} {i top : tree.Id}

/-- Every construct that controls statements is a statement of its own. -/
def Wrapped (tree : Tree) : Prop :=
  ∀ i : tree.Id, (tree.node i).kind.controls → ∃ p, (tree.node i).parent = some p ∧
    (tree.node p).kind = .statement ∧ (tree.node p).children = [i]

instance : Decidable tree.Wrapped :=
  inferInstanceAs (Decidable (∀ i : tree.Id, (tree.node i).kind.controls → ∃ p, (tree.node i).parent = some p ∧
    (tree.node p).kind = .statement ∧ (tree.node p).children = [i]))

theorem Preorder.anchorOf_of_climbs (preorder : Preorder tree) (climbs : Climbs tree i top) :
    tree.anchorOf i = tree.anchorOf top := by
  induction climbs with
  | here => rfl
  | up step _ ih => exact (preorder.anchorOf_of_lineParent step).trans ih

theorem Foremost.of_place {j : tree.Id} (foremost : Foremost tree i) (same : tree.placeOf j = tree.placeOf i) :
    Foremost tree j := by
  obtain ⟨line, column⟩ := Prod.mk.inj same
  intro k level
  rw [column]
  exact foremost k (level.trans line)

section Places

variable {root : Outline} {hidden : List Token} (faithful : root.Faithful) (flattened : root.toTree hidden = .ok tree)
include faithful flattened

theorem Foremost.leads (foremost : Foremost tree i) (stops : tree.lineParent? i = none) : Leads tree i := by
  have preorder := preorder_toTree flattened
  obtain ⟨_, reached⟩ := preorder.reached i
  obtain ⟨left, looked, _⟩ := reached.lineStart
  rcases lineStart_cases looked with rfl | ⟨p, named, earlier, ends⟩
  · exact ⟨stops, looked⟩
  · -- An earlier sibling that ends on the line has its last token there, before the node.
    obtain ⟨last, single, line, within, _⟩ := exists_end faithful flattened left
    have less := lt_of_inside_earlier flattened (preorder.listed named) earlier within
    have place := place_lt faithful flattened single less
    have column := foremost last (line.trans ends)
    omega

theorem Foremost.place_of_climbs (foremost : Foremost tree i) (climbs : Climbs tree i top) :
    tree.placeOf top = tree.placeOf i := by
  have level := climbs.line
  have place := place_le faithful flattened ((preorder_toTree flattened).climbs_le climbs)
  have column := foremost top level
  exact Prod.ext level (by simp only [placeOf]; omega)

theorem Foremost.climbs_anchorOf (foremost : Foremost tree i) : Climbs tree i (tree.anchorOf i) := by
  have preorder := preorder_toTree flattened
  obtain ⟨_, reached⟩ := preorder.reached i
  obtain ⟨top, _, _, climbs, stops, _⟩ := reached.outermost
  have first := foremost.of_place (foremost.place_of_climbs faithful flattened climbs)
  rw [preorder.anchorOf_of_climbs climbs, (first.leads faithful flattened stops).anchorOf]
  exact climbs

end Places

end Tree

namespace Check.Checker

variable {checker : Checker} {tree : Tree}

theorem Settled.knows (preorder : Tree.Preorder tree) {Done : tree.Id → Prop} {table : Corrections} {bound : Nat}
    (settled : checker.Settled [] Done table) (done : ∀ j : tree.Id, j.val < bound → Done j) :
    checker.Knows preorder bound table := by
  intro i inside
  induction number : i.val using Nat.strongRecOn generalizing i with
  | ind number ih =>
    cases named : (tree.node i).parent with
    | none =>
      rw [← number, checker.correction?_of_parentless preorder named, settled.fresh]
      · rfl
      · intro p other
        cases named.symm.trans other
    | some p =>
      have earlier : p.val < i.val := preorder.parent_lt named
      have knows : checker.Knows preorder p.val table := by
        intro j before
        exact ih j.val (by omega) j (by omega) rfl
      rw [← number, settled.known (done p (by omega)) (preorder.listed named), knows.misplacedUnder, knows.baseUnder,
        checker.correction?_eq preorder named]
      rfl

section Walk

variable {i : tree.Id} {before rest : List tree.Visit} (walked : tree.walk = before ++ ⟨.enter, i⟩ :: rest)
include walked

theorem exits_before (only : ∀ i : tree.Id, i ≠ tree.root → (tree.node i).kind ≠ .sourceUnit) :
    ∀ visit ∈ before, visit.phase = .exit → (tree.node visit.node).kind ≠ .sourceUnit := by
  obtain ⟨between, walk, others⟩ := tree.exists_walk_eq
  have split : before ++ ⟨.enter, i⟩ :: rest = (⟨.enter, tree.root⟩ :: between) ++ [⟨.exit, tree.root⟩] :=
    walked.symm.trans walk
  obtain ⟨more, front⟩ : before <+: ⟨.enter, tree.root⟩ :: between := by
    rcases List.append_eq_append_iff.1 split with ⟨more, front, _⟩ | ⟨more, _, back⟩
    · exact ⟨more, front.symm⟩
    · cases more with
      | nil => cases back
      | cons first more =>
        rw [List.cons_append, List.cons.injEq] at back
        simp at back
  intro visit member leaves
  have inside : visit ∈ ⟨.enter, tree.root⟩ :: between := front ▸ List.mem_append_left _ member
  rcases List.mem_cons.1 inside with rfl | later
  · cases leaves
  · exact only _ (others visit later)

theorem knows_midway (preorder : Tree.Preorder tree)
    (only : ∀ i : tree.Id, i ≠ tree.root → (tree.node i).kind ≠ .sourceUnit) :
    checker.Knows preorder i.val (checker.midway tree before).corrections := by
  have descends : Tree.Descends tree (fun _ => False) before := (walked ▸ Tree.descends_walk tree _).before
  have reached : ∀ visit ∈ before, ∃ depth, Tree.Reached tree depth visit.node := fun visit member =>
    Tree.reached_of_mem_walk (walked ▸ List.mem_append_left _ member)
  have passes : checker.Passes [] _ _ _ _ :=
    Settled.passes (s := ({} : State).note (.began tree.size)) descends reached (exits_before walked only)
      (settled_start checker tree [])
  have order := preorder.entered
  rw [walked, List.filterMap_append] at order
  refine passes.settled.knows preorder ?_
  intro j less
  exact .inr ((mem_iff_lt order.symm j).2 less)

end Walk

theorem braced_of_level {m q : tree.Id} (step : tree.lineParent? m = some q) (member : m ∈ checker.checked tree q) :
    (tree.node q).kind.hasBraces := by
  obtain ⟨_, level, other⟩ := Tree.lineParent?_eq_some.1 step
  by_contra bare
  rw [checked, if_neg other, if_neg bare] at member
  have loose := (List.mem_filter.1 member).2
  simp [isLoose, level] at loose

section Lines

variable (checker) (preorder : Tree.Preorder tree) {i a : tree.Id}

/-- On the way up a line, either nothing is misplaced, or the first that is determines the rest. -/
theorem nearest_of_climbing {line : Int} (climbs : Tree.Climbs tree i a) (starts : (tree.node i).line = line) :
    checker.nearest preorder line i = checker.nearest preorder line a ∨
      ∃ m q, Tree.Climbs tree i m ∧ Tree.Climbs tree i q ∧ tree.lineParent? m = some q ∧
        m ∈ checker.checked tree q ∧ checker.nearest preorder line i = some (m, checker.base preorder q) := by
  induction climbs with
  | here => exact .inl rfl
  | @up i p a step rest ih =>
    obtain ⟨named, level, _⟩ := Tree.lineParent?_eq_some.1 step
    cases found : (checker.required preorder i).filter (· ≠ (tree.node i).column) with
    | some column =>
      obtain ⟨needs, differs⟩ := Option.filter_eq_some_iff.1 found
      obtain ⟨q, above, member, rfl⟩ := checked_of_required needs
      obtain rfl : p = q := Option.some.inj (named.symm.trans above)
      have other : checker.base preorder p ≠ (tree.node i).column := by simpa using differs
      exact .inr ⟨i, p, .here, .up step .here, step, member, nearest_of_misplaced preorder needs other⟩
    | none =>
      have same : checker.nearest preorder line i = checker.nearest preorder line p := by
        rw [nearest, found]
        simp only
        split
        next missing => cases named.symm.trans missing
        next q other =>
          obtain rfl : p = q := Option.some.inj (named.symm.trans other)
          exact if_pos (level.symm.trans starts)
      rw [same]
      rcases ih (level.symm.trans starts) with equal | ⟨m, q, first, second, above, member, nearest⟩
      · exact .inl equal
      · exact .inr ⟨m, q, .up step first, .up step second, above, member, nearest⟩

/-- A node belongs as far to the right of an ancestor on its line as it stands, or one step
in from the anchor of the line with whatever is misplaced in between. -/
theorem settled_of_climbs (climbs : Tree.Climbs tree i a) :
    checker.settled preorder i = checker.settled preorder a + ((tree.node i).column - (tree.node a).column) ∨
      ∃ m q, Tree.Climbs tree i m ∧ Tree.Climbs tree i q ∧ tree.lineParent? m = some q ∧ m ∈ checker.checked tree q ∧
        checker.settled preorder i = checker.settled preorder (tree.anchorOf i) + checker.options.step +
          ((tree.node i).column - (tree.node m).column) := by
  rcases checker.nearest_of_climbing preorder climbs rfl with same | ⟨m, q, first, second, step, member, nearest⟩
  · left
    rw [settled, settled, climbs.line, same]
    cases checker.nearest preorder (tree.node i).line a with
    | none => dsimp only; omega
    | some found => dsimp only; omega
  · right
    refine ⟨m, q, first, second, step, member, ?_⟩
    rw [settled, nearest, preorder.anchorOf_of_climbs second, ← base_braces preorder (braced_of_level step member)]
    dsimp only
    omega

end Lines

section Places

variable {root : Outline} {hidden : List Token} (faithful : root.Faithful) (flattened : root.toTree hidden = .ok tree)
  (preorder : Tree.Preorder tree) {i : tree.Id}
include faithful flattened

theorem settled_of_foremost (foremost : Tree.Foremost tree i) :
    checker.settled preorder i = checker.settled preorder (tree.anchorOf i) := by
  have climbs := foremost.climbs_anchorOf faithful flattened
  have column := congrArg Prod.snd (foremost.place_of_climbs faithful flattened climbs)
  simp only [Tree.placeOf] at column
  rcases checker.settled_of_climbs preorder climbs with level | ⟨m, q, first, second, step, member, _⟩
  · rw [level, column]
    omega
  · -- A node in the place of its parent is its first child, and that is not measured.
    obtain ⟨named, level, other⟩ := Tree.lineParent?_eq_some.1 step
    have here := foremost.place_of_climbs faithful flattened first
    have same : tree.placeOf q = tree.placeOf m :=
      (foremost.place_of_climbs faithful flattened second).trans here.symm
    obtain ⟨p, rest, _, children⟩ := Tree.first_of_same_place faithful flattened (preorder.parent_lt named) same
    obtain rfl : q = p := Option.some.inj (named.symm.trans (tree.linked (children ▸ List.mem_cons_self)))
    exact absurd (List.mem_append_left _ member) (notMem_measured_of_first preorder other children level)

theorem settled_anchorOf_lt (climbs : Tree.Climbs tree i (tree.anchorOf i)) (behind : ¬ Tree.Foremost tree i) :
    checker.settled preorder (tree.anchorOf i) < checker.settled preorder i := by
  have positive := checker.options.step_pos
  rcases checker.settled_of_climbs preorder climbs with level | ⟨m, _, first, _, _, _, level⟩
  · have foremost := (preorder.leads_anchorOf i).foremost faithful flattened
    obtain ⟨j, beside, before⟩ : ∃ j : tree.Id, (tree.node j).line = (tree.node i).line ∧
        (tree.node j).column < (tree.node i).column := by
      simpa [Tree.Foremost] using behind
    have column := foremost j (beside.trans climbs.line.symm)
    omega
  · have line := first.line
    have place := Tree.place_le faithful flattened (preorder.climbs_le first)
    omega

end Places

theorem Knows.indentOf_of_uncorrected {preorder : Tree.Preorder tree} {bound : Nat} {table : Corrections} {i : tree.Id}
    (knows : checker.Knows preorder bound table) (inside : i.val ≤ bound)
    (free : ∀ j : tree.Id, (tree.node j).line = (tree.node i).line → Corrections.of? table j.val = none) :
    tree.indentOf table i = (tree.node i).column := by
  rw [knows.indentOf inside]
  apply settled_of_placed
  intro j upto level column found
  have before : j.val ≤ i.val := upto
  have none := (knows j (by omega)).symm.trans (free j level)
  rw [correction?, Option.map_eq_none_iff, found, Option.filter_eq_none_iff] at none
  simpa using none column rfl

section Bodies

variable (checker) {i : tree.Id}

theorem checksBodies_of_controls (controls : (tree.node i).kind.controls) : checksBodies tree i := by
  revert controls
  unfold checksBodies
  cases (tree.node i).kind <;> simp [Kind.controls, Kind.hasBraces]

theorem enter_controls {depth : Nat} (reached : Tree.Reached tree depth i) (controls : (tree.node i).kind.controls)
    (s : State) :
    (checker.after tree s ⟨.enter, i⟩).findings = s.findings ++
      ((checker.checked tree i).filter fun c => (tree.node c).column ≠ checker.requiredBody tree s i).map
        (findingOf tree (checker.requiredBody tree s i)) := by
  obtain ⟨other, bare⟩ := checksBodies_iff.1 (checksBodies_of_controls controls)
  have base : checker.baseUnder s.corrections i = checker.requiredBody tree s i := by
    rw [baseUnder, if_neg other, if_neg bare]
    rfl
  have endless : misplacedEndUnder s.corrections i = none := if_neg bare
  have entered : Entered checker i s (checker.after tree s ⟨.enter, i⟩) := entered_of_reached reached s
  rw [entered.flags.findings, findingsUnder, misplacedUnder, base, endless]
  exact congrArg _ (List.append_nil _)

theorem baseUnder_of_climbs (preorder : Tree.Preorder tree) (table : Corrections) {b : tree.Id}
    (climbs : Tree.Climbs tree b i) (braced : (tree.node b).kind.hasBraces) :
    checker.baseUnder table b = tree.indentOf table (tree.anchorOf i) + checker.options.step := by
  rw [baseUnder, if_neg (Kind.ne_sourceUnit_of_hasBraces braced), if_pos braced, preorder.anchorOf_of_climbs climbs]

variable {root : Outline} {hidden : List Token} (faithful : root.Faithful)
  (flattened : root.toTree hidden = .ok tree) (wrapped : tree.Wrapped) (controls : (tree.node i).kind.controls)
  {before rest : List tree.Visit} (walked : tree.walk = before ++ ⟨.enter, i⟩ :: rest)
include faithful flattened wrapped controls walked

/-- When a construct is entered, its bodies without braces have to stand one step in from the
statement around it. A body in braces that opens on its line would be measured from the
anchor. That is the same column if the construct is the first thing on its line. If its
anchor is around it and it is not the first, the column without braces lies further to the
right; and as long as nothing on the two lines has been corrected, the columns differ by as
much as the construct stands away from its anchor. -/
theorem loose_bodies_column :
    ∃ (s : State) (loose braced : Int), s = checker.midway tree before ∧ loose = checker.requiredBody tree s i ∧
      braced = tree.indentOf s.corrections (tree.anchorOf i) + checker.options.step ∧
      checker.check tree {} = .ok () (rest.foldl (checker.after tree) (checker.after tree s ⟨.enter, i⟩)) ∧
      (checker.after tree s ⟨.enter, i⟩).findings = s.findings ++
        ((checker.checked tree i).filter fun c => (tree.node c).column ≠ loose).map (findingOf tree loose) ∧
      (∀ b : tree.Id, Tree.Climbs tree b i → (tree.node b).kind.hasBraces →
        checker.baseUnder s.corrections b = braced) ∧
      (Tree.Foremost tree i → loose = braced) ∧
      (Tree.Climbs tree i (tree.anchorOf i) → ¬ Tree.Foremost tree i → braced < loose) ∧
      ((∀ j : tree.Id, (tree.node j).line = (tree.node i).line ∨
            (tree.node j).line = (tree.node (tree.anchorOf i)).line → Corrections.of? s.corrections j.val = none) →
        loose - braced = (tree.node i).column - (tree.node (tree.anchorOf i)).column) := by
  have preorder := Tree.preorder_toTree flattened
  obtain ⟨_, reached⟩ := preorder.reached i
  obtain ⟨statement, named, kind, children⟩ := wrapped i controls
  have knows : checker.Knows preorder i.val (checker.midway tree before).corrections :=
    knows_midway walked preorder (only_root_of_labels flattened faithful.only)
  have earlier : statement.val < i.val := preorder.parent_lt named
  have around : checker.requiredBody tree (checker.midway tree before) i =
      tree.indentOf (checker.midway tree before).corrections statement + checker.options.step := by
    rw [requiredBody, named]
  -- The statement stands where the construct does and has the same anchor.
  have place := Tree.placeOf_first faithful flattened children
  obtain ⟨line, column⟩ := Prod.mk.inj place
  have step : tree.lineParent? i = some statement := Tree.lineParent?_eq_some.2 ⟨named, line, by simp [kind]⟩
  have anchor := preorder.anchorOf_of_lineParent step
  have upto : (tree.anchorOf statement).val ≤ statement.val := preorder.anchorOf_le statement
  refine ⟨_, _, _, rfl, rfl, rfl, ?_, checker.enter_controls reached controls _,
    fun b climbs => checker.baseUnder_of_climbs preorder _ climbs, ?_, ?_, ?_⟩
  · rw [check_eq, walked, List.foldl_append, List.foldl_cons]
    rfl
  · intro foremost
    have first := foremost.of_place place.symm
    rw [around, anchor, knows.indentOf (by omega), knows.indentOf (by omega),
      settled_of_foremost faithful flattened preorder first]
  · intro climbs behind
    have above : Tree.Climbs tree statement (tree.anchorOf statement) := by
      rw [anchor] at climbs
      generalize tree.anchorOf statement = a at climbs upto ⊢
      cases climbs with
      | here => omega
      | up again rest =>
        cases step.symm.trans again
        exact rest
    have less : checker.settled preorder (tree.anchorOf statement) < checker.settled preorder statement :=
      settled_anchorOf_lt faithful flattened preorder above fun first => behind (first.of_place place)
    rw [around, anchor, knows.indentOf (by omega), knows.indentOf (by omega)]
    omega
  · intro free
    have here : tree.indentOf (checker.midway tree before).corrections statement = (tree.node statement).column :=
      knows.indentOf_of_uncorrected (by omega) fun j level => free j (.inl (level.trans line.symm))
    have there : tree.indentOf (checker.midway tree before).corrections (tree.anchorOf i) =
        (tree.node (tree.anchorOf i)).column :=
      knows.indentOf_of_uncorrected (by rw [anchor]; omega) fun j level => free j (.inr level)
    rw [around, here, there, column]
    omega

end Bodies

/-- A condition chained after "else", with a body without braces in some column. -/
def chained (column : Int) : Outline :=
  .row .sourceUnit
    (.row .statement
      (.condition 1 0 (.row .statement (.word "y" 2 4) []) (.word "else" 3 0)
        (.row .statement
          (.row .ifStatement (.word "if" 3 5)
            [.word "(" 3 8, .word "a" 3 9, .word ")" 3 10, .row .statement (.word "z" 4 column) []]) [])) [])
    [.ending]

def chainedTree (column : Int) : Tree :=
  ((chained column).toTree []).toOption.get (by
    obtain ⟨tree, flattened⟩ := Tree.exists_toTree (chained column) []
    rw [flattened]
    rfl)

theorem toTree_chained (column : Int) : (chained column).toTree [] = .ok (chainedTree column) := by
  obtain ⟨tree, flattened⟩ := Tree.exists_toTree (chained column) []
  simp [chainedTree, flattened, Except.toOption]

def chainedCondition : (chainedTree 4).Id := ⟨11, by decide +kernel⟩

theorem walk_chained :
    (chainedTree 4).walk =
      (chainedTree 4).walk.take 18 ++ ⟨.enter, chainedCondition⟩ :: (chainedTree 4).walk.drop 19 := by
  decide +kernel

theorem loose_bodies_column_chained :
    (chained 4).Faithful ∧ (chainedTree 4).Wrapped ∧
      ∃ s : State, s = (Checker.mk .fallback {}).midway (chainedTree 4) ((chainedTree 4).walk.take 18) ∧
        (Checker.mk .fallback {}).requiredBody (chainedTree 4) s chainedCondition -
          ((chainedTree 4).indentOf s.corrections ((chainedTree 4).anchorOf chainedCondition) + 4) = 5 := by
  have faithful : (chained 4).Faithful := by decide
  have wrapped : (chainedTree 4).Wrapped := by decide +kernel
  have controls : ((chainedTree 4).node chainedCondition).kind.controls := by decide +kernel
  have empty : ((Checker.mk .fallback {}).midway (chainedTree 4) ((chainedTree 4).walk.take 18)).corrections = [] := by
    decide +kernel
  have apart : ((chainedTree 4).node chainedCondition).column -
      ((chainedTree 4).node ((chainedTree 4).anchorOf chainedCondition)).column = 5 := by decide +kernel
  obtain ⟨_, _, _, rfl, rfl, rfl, _, _, _, _, _, differ⟩ :=
    (Checker.mk .fallback {}).loose_bodies_column faithful (toTree_chained 4) wrapped controls walk_chained
  refine ⟨faithful, wrapped, _, rfl, (differ ?_).trans apart⟩
  intro j _
  exact congrArg (Corrections.of? · j.val) empty

theorem startsAt_chained : StartsAt (chainedTree 9) 4 9 := by
  have tokens : ∀ t, t ∈ (chainedTree 9).tokens ↔ t ∈ (chained 9).tokens := by
    intro t
    rw [(Tree.tokens_toTree (toTree_chained 9)).mem_iff, List.append_nil]
  constructor
  · exact ⟨⟨"z", 4, 9, 0, 0⟩, (tokens _).2 (by decide), by decide⟩
  · rintro c ⟨t, member, _, _, line, rfl⟩
    have only : ∀ t ∈ (chained 9).tokens, t.line = 4 → 9 ≤ t.column := by decide
    exact only t ((tokens t).1 member) line

/-- One step in from the line, the body of a chained condition is refused because it does not
stand one step in from the condition; and there it is refused because that is no multiple of
the step. -/
theorem chained_body_refused :
    (chained 4).Faithful ∧ (chained 4).toTree [] = .ok (chainedTree 4) ∧ (chainedTree 4).Wrapped ∧
      ((chainedTree 4).node chainedCondition).kind.controls ∧
      (∃ body ∈ (Checker.mk .fallback {}).checked (chainedTree 4) chainedCondition,
        ((chainedTree 4).node body).line = 4 ∧ ((chainedTree 4).node body).column = 4) ∧
      (chainedTree 4).walk =
        (chainedTree 4).walk.take 18 ++ ⟨.enter, chainedCondition⟩ :: (chainedTree 4).walk.drop 19 ∧
      (∃ s : State, s = (Checker.mk .fallback {}).midway (chainedTree 4) ((chainedTree 4).walk.take 18) ∧
        (Checker.mk .fallback {}).requiredBody (chainedTree 4) s chainedCondition = 9 ∧
        (chainedTree 4).indentOf s.corrections ((chainedTree 4).anchorOf chainedCondition) + Options.fallback.step =
          4) ∧
      (∃ next, (Checker.mk .fallback {}).check (chainedTree 4) {} = .ok () next ∧
        ⟨4, 4, .misplaced 9⟩ ∈ next.findings) ∧
      ∃ next, (Checker.mk .fallback {}).check (chainedTree 9) {} = .ok () next ∧ ⟨4, 9, .uneven⟩ ∈ next.findings := by
  refine ⟨by decide, toTree_chained 4, by decide +kernel, by decide +kernel, by decide +kernel, walk_chained,
    ⟨_, rfl, by decide +kernel, by decide +kernel⟩, ?_, ?_⟩
  · obtain ⟨next, checked, adds⟩ := (Checker.mk .fallback {}).check_midway (chainedTree 4)
    have found : (⟨4, 4, .misplaced 9⟩ : Finding) ∈
        ((Checker.mk .fallback {}).midway (chainedTree 4) (chainedTree 4).walk.dropLast).findings := by decide +kernel
    exact ⟨next, checked, adds.findings ▸ List.mem_append_left _ found⟩
  · obtain ⟨next, checked, adds⟩ := (Checker.mk .fallback {}).check_midway (chainedTree 9)
    have unit : ((chainedTree 9).node (chainedTree 9).root).kind = .sourceUnit := by decide +kernel
    have free : ((Checker.mk .fallback {}).midway (chainedTree 9) (chainedTree 9).walk.dropLast).flaggedLines = [] := by
      decide +kernel
    have found : (⟨4, 9, .uneven⟩ : Finding) ∈ (Checker.mk .fallback {}).unevenOutside (chainedTree 9) [] :=
      mem_unevenOutside.2 ⟨startsAt_chained, by decide, rfl, List.not_mem_nil⟩
    rw [if_pos unit, free] at adds
    exact ⟨next, checked, adds.findings ▸ List.mem_append_right _ found⟩

end Check.Checker
end Indentation
