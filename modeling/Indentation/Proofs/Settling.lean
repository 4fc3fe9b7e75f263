import Indentation.Proofs.Entering

/-! Corrections settle from the root downwards. A node is entered after its parent, and
entering it decides, once and for all, the corrections of its children: what they are
measured from was decided when the nodes above were entered, and entering the node again
decides the same. So every finding of a pass is the one that the final table gives, in any
tree, even where children are listed more than once. -/

namespace Indentation

namespace Tree

variable {tree : Tree}

def Opened (tree : Tree) (Done : tree.Id → Prop) (i : tree.Id) : Prop :=
  ∀ p, (tree.node i).parent = some p → Done p

theorem Opened.mono {Done More : tree.Id → Prop} (more : ∀ i, Done i → More i) {i : tree.Id}
    (opened : Opened tree Done i) : Opened tree More i :=
  fun p named => more p (opened p named)

theorem upward_of_closed {Done : tree.Id → Prop}
    (closed : ∀ {i p : tree.Id}, Done i → (tree.node i).parent = some p → Done p) :
    Upward tree (Opened tree Done) := by
  constructor
  · intro i p opened named q above
    exact closed (opened p named) above
  · intro i s p opened named listed q above
    obtain rfl : p = q := Option.some.inj ((tree.linked listed).symm.trans above)
    exact opened p named

/-- Visits that enter every node after its parent. -/
inductive Descends (tree : Tree) : (tree.Id → Prop) → List tree.Visit → Prop where
  | done {Done : tree.Id → Prop} : Descends tree Done []
  | enter {Done : tree.Id → Prop} {i : tree.Id} {rest : List tree.Visit} (opened : Opened tree Done i)
      (later : Descends tree (fun j => Done j ∨ j = i) rest) : Descends tree Done (⟨.enter, i⟩ :: rest)
  | leave {Done : tree.Id → Prop} {i : tree.Id} {rest : List tree.Visit} (later : Descends tree Done rest) :
      Descends tree Done (⟨.exit, i⟩ :: rest)

theorem Descends.before {Done : tree.Id → Prop} {first second : List tree.Visit}
    (descends : Descends tree Done (first ++ second)) : Descends tree Done first := by
  induction first generalizing Done with
  | nil => exact .done
  | cons visit rest ih =>
    cases descends with
    | enter opened later => exact .enter opened (ih later)
    | leave later => exact .leave (ih later)

theorem Works.descends {stack : List (tree.Id × Bool)} {visits : List tree.Visit} (works : Works tree stack visits)
    {Done : tree.Id → Prop} (opened : ∀ item ∈ stack, Opened tree Done item.1) :
    Descends tree Done visits := by
  -- The stack holds only nodes whose parents have been entered.
  induction works generalizing Done with
  | done => exact .done
  | leave _ ih => exact .leave (ih fun item member => opened item (List.mem_cons_of_mem _ member))
  | @enter i rest _ _ ih =>
    have here : Opened tree Done i := opened _ List.mem_cons_self
    refine .enter here (ih ?_)
    intro item member
    rcases List.mem_append.1 member with child | old
    · obtain ⟨c, listed, rfl⟩ := List.mem_map.1 child
      intro p named
      exact .inr (Option.some.inj (named.symm.trans (tree.linked listed)))
    · rcases List.mem_cons.1 old with rfl | old
      · exact here.mono fun _ => .inl
      · exact (opened item (List.mem_cons_of_mem _ old)).mono fun _ => .inl

theorem descends_walk (tree : Tree) (Done : tree.Id → Prop) : Descends tree Done tree.walk := by
  refine (works_walk tree).descends ?_
  intro item member p named
  obtain rfl := List.mem_singleton.1 member
  cases parent_root.symm.trans named

def entered (tree : Tree) : List tree.Id := tree.walk.filterMap Visit.entered?

end Tree

namespace Check.Checker

variable {checker : Checker} {tree : Tree}

/-- The table when certain nodes have been entered: beside what it held at the start it holds
what they decide and no more. -/
structure Settled (checker : Checker) (start : Corrections) (Done : tree.Id → Prop) (table : Corrections) : Prop where
  closed : ∀ {i p : tree.Id}, Done i → (tree.node i).parent = some p → Done p
  known : ∀ {p c : tree.Id}, Done p → c ∈ (tree.node p).children →
    Corrections.of? table c.val = (Corrections.of? start c.val).or
      (if c ∈ checker.misplacedUnder table p then some ⟨(tree.node c).column, checker.baseUnder table p⟩ else none)
  fresh : ∀ {i : tree.Id}, (∀ p, (tree.node i).parent = some p → ¬ Done p) →
    Corrections.of? table i.val = Corrections.of? start i.val

variable {start : Corrections} {Done : tree.Id → Prop}

theorem settled_start (checker : Checker) (tree : Tree) (start : Corrections) :
    checker.Settled start (fun _ : tree.Id => False) start := by
  constructor
  · exact nofun
  · exact nofun
  · intro i _
    rfl

namespace Settled

variable {s : State} {depth : Nat} {i : tree.Id} (settled : checker.Settled start Done s.corrections)
  (reached : Tree.Reached tree depth i)
include settled reached

theorem enter_again (again : Done i) : (checker.after tree s ⟨.enter, i⟩).corrections = s.corrections := by
  rw [(entered_of_reached reached s).corrections]
  apply recordAll_of_known
  intro c member
  rw [settled.known again (listed_of_misplacedUnder member), if_pos member, Option.isSome_or, Option.isSome_some,
    Bool.or_true]

theorem enter_keeps {j : tree.Id} (opened : Tree.Opened tree Done j) :
    Corrections.of? (checker.after tree s ⟨.enter, i⟩).corrections j.val = Corrections.of? s.corrections j.val := by
  by_cases again : Done i
  · rw [settled.enter_again reached again]
  · rw [(entered_of_reached reached s).corrections]
    apply of?_recordAll_of_notMem
    intro member
    exact again (opened i (tree.linked (listed_of_misplacedUnder member)))

theorem enter (opened : Tree.Opened tree Done i) :
    checker.Settled start (fun j => Done j ∨ j = i) (checker.after tree s ⟨.enter, i⟩).corrections := by
  have upward := Tree.upward_of_closed settled.closed
  have keeps := fun j (seen : Tree.Opened tree Done j) => settled.enter_keeps reached seen
  have entered : Entered checker i s (checker.after tree s ⟨.enter, i⟩) := entered_of_reached reached s
  constructor
  · intro j p done named
    rcases done with old | rfl
    · exact .inl (settled.closed old named)
    · exact .inl (opened p named)
  · intro p c done listed
    have seen : Tree.Opened tree Done p := by
      rcases done with old | rfl
      · exact fun q named => settled.closed old named
      · exact opened
    rw [misplacedUnder_congr upward keeps seen, baseUnder_congr upward keeps seen]
    by_cases old : Done p
    · have beside : Tree.Opened tree Done c := by
        intro q named
        obtain rfl : p = q := Option.some.inj ((tree.linked listed).symm.trans named)
        exact old
      rw [keeps c beside, settled.known old listed]
    · obtain rfl : p = i := done.resolve_left old
      have untouched : Corrections.of? s.corrections c.val = Corrections.of? start c.val := by
        apply settled.fresh
        intro q named
        obtain rfl : p = q := Option.some.inj ((tree.linked listed).symm.trans named)
        exact old
      rw [entered.corrections, of?_recordAll, untouched]
  · intro j away
    have untouched : Corrections.of? s.corrections j.val = Corrections.of? start j.val :=
      settled.fresh fun p named old => away p named (.inl old)
    rw [entered.corrections, of?_recordAll_of_notMem, untouched]
    intro member
    exact away i (tree.linked (listed_of_misplacedUnder member)) (.inr rfl)

end Settled

/-- What a run of visits does, by the nodes that it enters. -/
structure Passes (checker : Checker) (start : Corrections) (Done : tree.Id → Prop) (ids : List tree.Id)
    (s next : State) : Prop where
  settled : checker.Settled start (fun j => Done j ∨ j ∈ ids) next.corrections
  keeps : ∀ j : tree.Id, Tree.Opened tree Done j →
    Corrections.of? next.corrections j.val = Corrections.of? s.corrections j.val
  again : (∀ i ∈ ids, Done i) → next.corrections = s.corrections
  reports : Reports s next (ids.flatMap (checker.findingsUnder next.corrections))

theorem Settled.passes {visits : List tree.Visit} (descends : Tree.Descends tree Done visits)
    (reached : ∀ visit ∈ visits, ∃ depth, Tree.Reached tree depth visit.node)
    (others : ∀ visit ∈ visits, visit.phase = .exit → (tree.node visit.node).kind ≠ .sourceUnit) {s : State}
    (settled : checker.Settled start Done s.corrections) :
    checker.Passes start Done (visits.filterMap Tree.Visit.entered?) s (visits.foldl (checker.after tree) s) := by
  induction descends generalizing s with
  | done =>
    refine ⟨?_, fun _ _ => rfl, fun _ => rfl, Reports.refl s⟩
    simpa using settled
  | @leave Done i rest _ ih =>
    rw [List.foldl_cons, checker.after_exit (others _ List.mem_cons_self rfl)]
    exact ih (fun visit member => reached visit (List.mem_cons_of_mem _ member))
      (fun visit member => others visit (List.mem_cons_of_mem _ member)) settled
  | @enter Done i rest opened _ ih =>
    obtain ⟨depth, here⟩ := reached _ List.mem_cons_self
    have later := ih (fun visit member => reached visit (List.mem_cons_of_mem _ member))
      (fun visit member => others visit (List.mem_cons_of_mem _ member)) (settled.enter here opened)
    have keeps : ∀ j, Tree.Opened tree Done j →
        Corrections.of? (rest.foldl (checker.after tree) (checker.after tree s ⟨.enter, i⟩)).corrections j.val =
          Corrections.of? s.corrections j.val := by
      intro j seen
      rw [later.keeps j (seen.mono fun _ => .inl), settled.enter_keeps here seen]
    have split : List.filterMap Tree.Visit.entered? (⟨.enter, i⟩ :: rest) =
        i :: rest.filterMap Tree.Visit.entered? := rfl
    rw [List.foldl_cons, split]
    refine ⟨?_, keeps, ?_, ?_⟩
    · simpa only [List.mem_cons, or_assoc] using later.settled
    · intro all
      rw [later.again fun j member => .inl (all j (List.mem_cons_of_mem _ member)),
        settled.enter_again here (all i List.mem_cons_self)]
    · have first : Entered checker i s (checker.after tree s ⟨.enter, i⟩) := entered_of_reached here s
      have reports := first.reports
      -- What the node found on entry is what the final table gives.
      rw [← findingsUnder_congr (Tree.upward_of_closed settled.closed) keeps opened] at reports
      exact reports.trans later.reports

def straysUnder (checker : Checker) (tree : Tree) (table : Corrections) : List Finding :=
  tree.entered.flatMap (checker.findingsUnder table)

/-- What a check does that starts when certain nodes have been entered before. -/
structure Checks (checker : Checker) (start : Corrections) (Done : tree.Id → Prop) (s next : State) : Prop where
  settled : checker.Settled start (fun j => Done j ∨ j ∈ tree.entered) next.corrections
  again : (∀ i ∈ tree.entered, Done i) → next.corrections = s.corrections
  flagged : ∀ line, line ∈ next.flaggedLines ↔
    line ∈ s.flaggedLines ∨ ∃ finding ∈ checker.straysUnder tree next.corrections, finding.line = line
  findings : next.findings = s.findings ++ (checker.straysUnder tree next.corrections ++
    if (tree.node tree.root).kind = .sourceUnit then checker.unevenOutside tree next.flaggedLines else [])

theorem Settled.check {s : State} (only : ∀ i : tree.Id, i ≠ tree.root → (tree.node i).kind ≠ .sourceUnit)
    (settled : checker.Settled start Done s.corrections) :
    ∃ next, checker.check tree s = .ok () next ∧ checker.Checks start Done s next := by
  obtain ⟨between, walk, others⟩ := tree.exists_walk_eq
  let visits : List tree.Visit := ⟨.enter, tree.root⟩ :: between
  have split : tree.walk = visits ++ [⟨.exit, tree.root⟩] := walk
  have descends : Tree.Descends tree Done visits := (split ▸ Tree.descends_walk tree Done).before
  have reached : ∀ visit ∈ visits, ∃ depth, Tree.Reached tree depth visit.node := fun visit member =>
    Tree.reached_of_mem_walk (split ▸ List.mem_append_left _ member)
  have exits : ∀ visit ∈ visits, visit.phase = .exit → (tree.node visit.node).kind ≠ .sourceUnit := by
    intro visit member leaves
    rcases List.mem_cons.1 member with rfl | inside
    · cases leaves
    · exact only _ (others visit inside)
  have passes := Settled.passes descends reached exits (s := s.note (.began tree.size)) settled
  have same : visits.filterMap Tree.Visit.entered? = tree.entered := by
    rw [Tree.entered, split, List.filterMap_append]
    exact (List.append_nil _).symm
  rw [same] at passes
  refine ⟨_, checker.check_eq tree s, ?_⟩
  rw [split, List.foldl_append, List.foldl_cons, List.foldl_nil]
  generalize visits.foldl (checker.after tree) (s.note (.began tree.size)) = middle at passes ⊢
  have adds := checker.leave_adds tree middle
  have corrections : (checker.after tree middle ⟨.exit, tree.root⟩).corrections = middle.corrections := by
    simpa using adds.corrections
  have lines : (checker.after tree middle ⟨.exit, tree.root⟩).flaggedLines = middle.flaggedLines := by
    simp [State.flaggedLines, adds.bodyLines, adds.memberLines]
  constructor
  · rw [corrections]
    exact passes.settled
  · rw [corrections]
    exact passes.again
  · rw [lines, corrections]
    exact passes.reports.flagged
  · rw [lines, corrections, adds.findings, passes.reports.findings, List.append_assoc]
    rfl

theorem exists_checks (checker : Checker)
    (only : ∀ i : tree.Id, i ≠ tree.root → (tree.node i).kind ≠ .sourceUnit) (s : State) :
    ∃ next, checker.check tree s = .ok () next ∧
      checker.Checks s.corrections (fun _ : tree.Id => False) s next :=
  (settled_start checker tree s.corrections).check only

end Check.Checker
end Indentation
