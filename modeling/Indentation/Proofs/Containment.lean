import Indentation.Proofs.Cascade

/-! A misplaced line does not spread. Take a tree in which nothing is found and a node that
everything starting on its line belongs to, and move the tokens of that line to the side. If
the node is checked, all that is found is found on that line, and the node is among it. If
the node is the token that ends a body, it is the only thing found. -/

namespace Indentation

namespace Tree

variable {tree : Tree} {top i : tree.Id}

section Lines

variable (ordered : ∀ {i p : tree.Id}, (tree.node i).parent = some p → (tree.node p).line ≤ (tree.node i).line)
include ordered

theorem Inside.line_le (inside : Inside tree top i) : (tree.node top).line ≤ (tree.node i).line := by
  induction inside with
  | here => exact Int.le_refl _
  | deeper named _ ih => exact Int.le_trans ih (ordered named)

/-- From a node on the line of an enclosing one the climb passes that one. -/
theorem Inside.climbs (only : ∀ i : tree.Id, i ≠ tree.root → (tree.node i).kind ≠ .sourceUnit)
    (other : top ≠ tree.root) (inside : Inside tree top i) (level : (tree.node i).line = (tree.node top).line) :
    Climbs tree i top := by
  induction inside with
  | here => exact .here
  | @deeper i p named above ih =>
    have lower := above.line_le ordered
    have upper := ordered named
    have same : (tree.node i).line = (tree.node p).line := by omega
    exact .up (lineParent?_eq_some.2 ⟨named, same, only p (above.ne_root other)⟩) (ih (same.symm.trans level))

end Lines

end Tree

namespace Check.Checker

variable {checker : Checker} {tree : Tree}

theorem anchorOf_ne_root (preorder : Tree.Preorder tree) (unit : (tree.node tree.root).kind = .sourceUnit) {p : tree.Id}
    (braced : (tree.node p).kind.hasBraces) : tree.anchorOf p ≠ tree.root := by
  apply preorder.anchorOf_inner unit
  rintro rfl
  exact Kind.ne_sourceUnit_of_hasBraces braced unit

section Steadiness

variable {line : Int} {e : tree.Id} (preorder : Tree.Preorder tree) (unit : (tree.node tree.root).kind = .sourceUnit)
  (starts : (tree.node e).line = line)
  (alone : ∀ i : tree.Id, i ≠ tree.root → (tree.node i).line = line → Tree.Inside tree e i)
include preorder unit starts alone

/-- A checked node carries all that starts on its line. -/
theorem steady_of_checked
    (ordered : ∀ {i p : tree.Id}, (tree.node i).parent = some p → (tree.node p).line ≤ (tree.node i).line)
    (only : ∀ i : tree.Id, i ≠ tree.root → (tree.node i).kind ≠ .sourceUnit)
    (plain : ∀ c ∈ (tree.node tree.root).children, ¬ (tree.node c).kind.controls) {r : tree.Id}
    (member : e ∈ checker.checked tree r) : checker.Steady tree line := by
  have other : e ≠ tree.root := by
    rintro rfl
    cases Tree.parent_root.symm.trans (tree.linked (mem_children_of_checked checker member))
  have carried : ∀ i : tree.Id, i ≠ tree.root → (tree.node i).line = line → checker.Carried tree i := by
    intro i inner level
    exact ⟨e, (alone i inner level).climbs ordered only other (level.trans starts.symm), r, member⟩
  constructor
  · intro p braced level
    exact carried _ (anchorOf_ne_root preorder unit braced) level
  · intro p q c checks member named level
    refine carried q ?_ level
    rintro rfl
    exact plain p (preorder.listed named) (checker.controls_of_checked checks member)

/-- Nothing is measured from a single token that has its line to itself. -/
theorem steady_of_single (plain : ∀ c ∈ (tree.node tree.root).children, ¬ (tree.node c).kind.controls)
    (single : (tree.node e).kind = .terminal) (childless : (tree.node e).children = [])
    (ends : (tree.node e).stopLine = (tree.node e).line) : checker.Steady tree line := by
  have same : ∀ i : tree.Id, i ≠ tree.root → (tree.node i).line = line → i = e :=
    fun i other level => (alone i other level).eq_of_childless preorder childless
  constructor
  · intro p braced level
    have apart : tree.anchorOf p ≠ e ∧ tree.anchorOf p ≠ tree.root := by
      refine preorder.anchorOf_of_kept (fun i => i ≠ e ∧ i ≠ tree.root) ?_ ?_
      · rintro i left ⟨before, other⟩ found
        refine ⟨?_, Tree.leftmost_ne_root unit other found⟩
        rintro rfl
        obtain ⟨top, climbs, _, looked⟩ := Tree.leftmost_cases found
        have level := climbs.line
        rcases Tree.lineStart_cases looked with rfl | ⟨_, _, _, stops⟩
        · exact before (same i other (level.symm.trans starts))
        · exact before (same i other (by omega))
      · refine ⟨?_, ?_⟩
        · rintro rfl
          rw [single] at braced
          cases braced
        · rintro rfl
          exact Kind.ne_sourceUnit_of_hasBraces braced unit
    exact absurd (same _ apart.2 level) apart.1
  · intro p q c checks member named level
    have listed := preorder.listed named
    by_cases first : q = tree.root
    · rw [first] at listed
      exact absurd (checker.controls_of_checked checks member) (plain p listed)
    · rw [same q first level, childless] at listed
      cases listed

end Steadiness

/-- The other lines start where they did. -/
theorem startsAt_shifted {root : Outline} {hidden tokens : List Token} {line offset l column : Int}
    (flattened : root.toTree hidden = .ok tree)
    (again : (root.relaid id (moved line offset)).toTree hidden = .ok (tree.relaid id (moved line offset) tokens))
    (other : l ≠ line) :
    StartsAt (tree.relaid id (moved line offset) tokens) l column ↔ StartsAt tree l column := by
  have old := Tree.tokens_toTree flattened
  have new := Tree.tokens_toTree again
  rw [Outline.tokens_relaid] at new
  have stays : ∀ t : Token, t.line = l → t.relaid id (moved line offset) = t := by
    intro t level
    have column : moved line offset t.line t.column = t.column := if_neg fun same => other (level.symm.trans same)
    simp [Token.relaid, column]
  apply startsAt_congr
  intro t level
  rw [new.mem_iff, old.mem_iff, List.mem_append, List.mem_append]
  refine or_congr_left ⟨?_, fun inside => List.mem_map.2 ⟨t, inside, stays t level⟩⟩
  intro inside
  obtain ⟨u, member, rfl⟩ := List.mem_map.1 inside
  rwa [stays u level]

theorem Outcome.findings_shifted {tokens : List Token} {line offset : Int} (preorder : Tree.Preorder tree)
    {anew : Tree.Preorder (tree.relaid id (moved line offset) tokens)} {s : State} {p c : tree.Id}
    (outcome : checker.Outcome anew s) (quiet : checker.Quiet tree) (away : offset ≠ 0)
    (steady : checker.Steady tree line) (member : c ∈ checker.measured tree p) (starts : (tree.node c).line = line)
    (others : ∀ l column, l ≠ line → StartsAt (tree.relaid id (moved line offset) tokens) l column →
      checker.options.step ∣ column) :
    s.findings = (List.finRange tree.size).flatMap fun i =>
      ((checker.measured tree i).filter fun c => (tree.node c).line = line).map (strayed tree offset) := by
  have at_node : checker.findingsAt anew = fun i =>
      ((checker.measured tree i).filter fun c => (tree.node c).line = line).map (strayed tree offset) :=
    funext fun i => findingsAt_shifted preorder anew quiet away steady i
  obtain ⟨uneven, findings, exactly⟩ := outcome.findings
  have even : uneven = [] := by
    refine List.eq_nil_iff_forall_not_mem.2 fun finding inside => ?_
    obtain ⟨_, found, odd, _, free⟩ := (exactly.lines finding).1 inside
    refine odd (others _ _ ?_ found)
    have stray : strayed tree offset c ∈ checker.strays anew := by
      rw [strays, at_node]
      refine List.mem_flatMap.2 ⟨p, List.mem_finRange p, List.mem_map_of_mem ?_⟩
      exact List.mem_filter.2 ⟨member, decide_eq_true starts⟩
    exact fun same => free _ stray (starts.trans same.symm)
  rw [findings, even, List.append_nil, strays, at_node]

private theorem flatMap_of_only {α β : Type} {f : α → List β} {items : List α} {a : α} (distinct : items.Nodup)
    (member : a ∈ items) (others : ∀ b ∈ items, b ≠ a → f b = []) : items.flatMap f = f a := by
  obtain ⟨before, rest, rfl⟩ := List.append_of_mem member
  obtain ⟨_, later, apart⟩ := List.nodup_append.1 distinct
  have first : before.flatMap f = [] :=
    List.flatMap_eq_nil_iff.2 fun b inside =>
      others b (List.mem_append_left _ inside) (apart b inside a List.mem_cons_self)
  have last : rest.flatMap f = [] := by
    refine List.flatMap_eq_nil_iff.2 fun b inside => others b (List.mem_append_right _ (List.mem_cons_of_mem _ inside)) ?_
    rintro rfl
    exact (List.nodup_cons.1 later).1 inside
  rw [List.flatMap_append, List.flatMap_cons, first, last, List.nil_append, List.append_nil]

/-- Among what a braced node measures, the one single token is the end. -/
theorem filter_measured_of_ending {line : Int} {p e : tree.Id} (braced : (tree.node p).kind.hasBraces)
    (ends : tree.ending? p = some e) (single : (tree.node e).isTerminal) (starts : (tree.node e).line = line)
    (same : ∀ c ∈ checker.measured tree p, (tree.node c).line = line → c = e) :
    ((checker.measured tree p).filter fun c => (tree.node c).line = line) = [e] := by
  have members : (checker.checked tree p).filter (fun c => (tree.node c).line = line) = [] := by
    rw [List.filter_eq_nil_iff]
    intro c member level
    obtain rfl := same c (List.mem_append_left _ member) (of_decide_eq_true level)
    rw [checked_nested braced] at member
    obtain ⟨_, composite, _⟩ := Tree.mem_nested.1 member
    simp [Node.isTerminal, composite] at single
  rw [measured, List.filter_append, members, if_pos braced, ends]
  simp [starts]

/-- The tree with the moved line can be checked, and what is found on the way is known if
the line is steady and something is measured on it. -/
private theorem exists_shifted {root : Outline} {hidden : List Token} {line offset : Int} (derived : root.Derived)
    (flattened : root.toTree hidden = .ok tree) (apart : checker.profile.ifThen ≠ checker.profile.ifElse)
    (only : ∀ i : tree.Id, i ≠ tree.root → (tree.node i).kind ≠ .sourceUnit)
    (unit : (tree.node tree.root).kind = .sourceUnit) (quiet : checker.Quiet tree) (away : offset ≠ 0) :
    ∃ (next : Tree) (after : State),
      (root.shifted line offset).toTree hidden = .ok next ∧ checker.check next {} = .ok () after ∧
      (checker.Steady tree line → ∀ {p c : tree.Id}, c ∈ checker.measured tree p → (tree.node c).line = line →
        after.findings = (List.finRange tree.size).flatMap fun i =>
          ((checker.measured tree i).filter fun c => (tree.node c).line = line).map (strayed tree offset)) := by
  obtain ⟨tokens, again⟩ : ∃ tokens, (root.relaid id (moved line offset)).toTree hidden =
      .ok (tree.relaid id (moved line offset) tokens) := Tree.toTree_relaid flattened
  have preorder := Tree.preorder_toTree flattened
  obtain ⟨after, checked, outcome⟩ := checker.outcome_of_check (Tree.preorder_toTree again) apart only
  refine ⟨_, after, by rw [Outline.shifted_eq _ _ derived]; exact again, checked, ?_⟩
  intro steady p c member starts
  apply outcome.findings_shifted preorder quiet away steady member starts
  intro l column other found
  exact quiet.lines unit l column ((startsAt_shifted flattened again other).1 found)

/-- A misplaced line is reported on that line only, whether what it holds is a top-level node, a
nested element or a governed statement; and if it holds an end bracket, that is all there is. -/
theorem check_shifted_line (options : Options) (profile : Profile) {root : Outline} {hidden : List Token} {tree : Tree}
    {s : State} {line offset : Int} {e : tree.Id} (faithful : root.Faithful) (unit : root.label.kind = .sourceUnit)
    (plain : ∀ o ∈ root.children, ¬ o.label.kind.controls) (apart : profile.ifThen ≠ profile.ifElse)
    (flattened : root.toTree hidden = .ok tree) (before : (Checker.mk options profile).check tree {} = .ok () s)
    (silent : s.findings = []) (starts : (tree.node e).line = line)
    (alone : ∀ i : tree.Id, i ≠ tree.root → (tree.node i).line = line → Tree.Inside tree e i) (away : offset ≠ 0) :
    ∃ (next : Tree) (after : State),
      (root.shifted line offset).toTree hidden = .ok next ∧
      (Checker.mk options profile).check next {} = .ok () after ∧
      ((∃ p, (Checker.mk options profile).Requires tree p e) →
        strayed tree offset e ∈ after.findings ∧ ∀ finding ∈ after.findings, finding.line = line) ∧
      ((∃ p, (tree.node p).kind.hasBraces ∧ tree.ending? p = some e ∧ (tree.node e).kind = .terminal) →
        after.findings = [strayed tree offset e]) := by
  have preorder := Tree.preorder_toTree flattened
  have shows := Tree.shows_toTree flattened
  have only := only_root_of_labels flattened faithful.only
  have top : (tree.node tree.root).kind = .sourceUnit := shows.fits.kind.trans unit
  have bare : ∀ c ∈ (tree.node tree.root).children, ¬ (tree.node c).kind.controls := by
    intro c listed
    obtain ⟨o, member, shown⟩ := shows.exists_child listed
    rw [shown.fits.kind]
    exact plain o member
  have quiet := (outcome_of_checked preorder apart only before).findings_eq_nil_iff.1 silent
  obtain ⟨next, after, again, checked, findings⟩ :=
    exists_shifted faithful.derived flattened apart only top quiet away
  refine ⟨next, after, again, checked, ?_, ?_⟩
  · rintro ⟨p, held⟩
    have member := mem_checked.2 held
    have steady := steady_of_checked preorder top starts alone (Tree.parent_line_le faithful flattened) only bare member
    have member : e ∈ (Checker.mk options profile).measured tree p := List.mem_append_left _ member
    rw [findings steady member starts]
    constructor
    · refine List.mem_flatMap.2 ⟨p, List.mem_finRange p, List.mem_map_of_mem ?_⟩
      exact List.mem_filter.2 ⟨member, decide_eq_true starts⟩
    · intro finding found
      obtain ⟨_, _, found⟩ := List.mem_flatMap.1 found
      obtain ⟨c, kept, rfl⟩ := List.mem_map.1 found
      exact of_decide_eq_true (List.mem_filter.1 kept).2
  · rintro ⟨p, braced, ending, single⟩
    obtain ⟨childless, ends⟩ := Tree.childless_of_terminal faithful flattened single
    have steady : (Checker.mk options profile).Steady tree line :=
      steady_of_single preorder top starts alone bare single childless ends
    have same : ∀ i, ∀ c ∈ (Checker.mk options profile).measured tree i, (tree.node c).line = line → c = e := by
      intro i c member level
      refine (alone c ?_ level).eq_of_childless preorder childless
      rintro rfl
      cases Tree.parent_root.symm.trans (parent_of_measured member)
    have member : e ∈ (Checker.mk options profile).measured tree p := by
      rw [measured, if_pos braced, ending]
      exact List.mem_append_right _ List.mem_cons_self
    obtain ⟨label, _, fits⟩ := Tree.fits_toTree flattened e
    have token : (tree.node e).isTerminal := by rw [fits.isTerminal, single]; rfl
    rw [findings steady member starts, flatMap_of_only (List.nodup_finRange _) (List.mem_finRange p),
      filter_measured_of_ending braced ending token starts (same p)]
    · rfl
    · -- whatever else is measured on the line is the same token, and it has one parent only
      intro i _ other
      rw [List.map_eq_nil_iff, List.filter_eq_nil_iff]
      intro c inside level
      obtain rfl := same i c inside (of_decide_eq_true level)
      exact other (Option.some.inj ((parent_of_measured inside).symm.trans (parent_of_measured member)))

def upright : Outline :=
  .node ⟨.sourceUnit, none, 1, 0, 3, 0, 0⟩
    [.node ⟨.block, none, 1, 0, 3, 0, 0⟩
      [.node ⟨.terminal, some "\x7b", 1, 0, 1, 0, 0⟩ [],
        .node ⟨.statement, none, 2, 4, 2, 0, 0⟩ [.node ⟨.terminal, some "x", 2, 4, 2, 0, 0⟩ []],
        .node ⟨.terminal, some "\x7d", 3, 0, 3, 0, 0⟩ []]]

theorem faithful_upright : upright.Faithful := by decide

def uprightTree : Tree := (upright.toTree []).toOption.get (by decide +kernel)

theorem toTree_upright : upright.toTree [] = .ok uprightTree := by
  obtain ⟨tree, flattened⟩ := Tree.exists_toTree upright []
  simp [uprightTree, flattened, Except.toOption]

theorem silent_upright : ∃ s, (Checker.mk .fallback {}).check uprightTree {} = .ok () s ∧ s.findings = [] := by
  obtain ⟨s, checked, adds⟩ := (Checker.mk .fallback {}).check_midway uprightTree
  have passed : (Checker.mk .fallback {}).midway uprightTree uprightTree.walk.dropLast = { notes := [.began 6] } := by
    decide +kernel
  have even : (Checker.mk .fallback {}).unevenOutside uprightTree [] = [] := by
    apply unevenOutside_eq_nil
    intro t member _
    have tokens : ∀ t ∈ upright.tokens, (4 : Int) ∣ t.column := by decide
    exact tokens t (by simpa using (Tree.tokens_toTree toTree_upright).mem_iff.1 member)
  rw [passed] at adds
  refine ⟨s, checked, ?_⟩
  rw [adds.findings]
  simp [State.flaggedLines, even]

def uprightBlock : uprightTree.Id := ⟨1, by decide +kernel⟩

def uprightStatement : uprightTree.Id := ⟨3, by decide +kernel⟩

/-- The line of the block is moved, which the other lines are measured from, and then the line
of the nested element. -/
theorem check_shifted_line_upright :
    (∃ (next : Tree) (after : State), (upright.shifted 1 2).toTree [] = .ok next ∧
      (Checker.mk .fallback {}).check next {} = .ok () after ∧
      ⟨1, 2, .misplaced 0⟩ ∈ after.findings ∧ ∀ finding ∈ after.findings, finding.line = 1) ∧
    ∃ (next : Tree) (after : State), (upright.shifted 2 3).toTree [] = .ok next ∧
      (Checker.mk .fallback {}).check next {} = .ok () after ∧
      ⟨2, 7, .misplaced 4⟩ ∈ after.findings ∧ ∀ finding ∈ after.findings, finding.line = 2 := by
  obtain ⟨s, run, silent⟩ := silent_upright
  have inside : ∀ {line : Int} {e : uprightTree.Id}, (∀ i : uprightTree.Id, i ≠ uprightTree.root →
      (uprightTree.node i).line = line → i = e ∨ (uprightTree.node i).parent = some e) →
      ∀ i : uprightTree.Id, i ≠ uprightTree.root → (uprightTree.node i).line = line → Tree.Inside uprightTree e i := by
    intro line e near i other level
    rcases near i other level with rfl | named
    · exact .here
    · exact .deeper named .here
  constructor
  · have starts : (uprightTree.node uprightBlock).line = 1 := by decide +kernel
    have away : (2 : Int) ≠ 0 := by decide
    have top : (Checker.mk .fallback {}).Requires uprightTree uprightTree.root uprightBlock :=
      .topLevel (by decide +kernel) (by decide +kernel) (by decide +kernel)
    obtain ⟨next, after, again, checked, first, _⟩ := check_shifted_line .fallback {} faithful_upright rfl (by decide)
      (by decide) toTree_upright run silent starts (inside (by decide +kernel)) away
    exact ⟨next, after, again, checked, first ⟨_, top⟩⟩
  · have starts : (uprightTree.node uprightStatement).line = 2 := by decide +kernel
    have away : (3 : Int) ≠ 0 := by decide
    have second : (uprightTree.node uprightBlock).children[1]? = some uprightStatement := by decide +kernel
    have nested : (Checker.mk .fallback {}).Requires uprightTree uprightBlock uprightStatement :=
      .nested (by decide +kernel) (by decide +kernel) second (by decide +kernel) (by decide +kernel)
    obtain ⟨next, after, again, checked, first, _⟩ := check_shifted_line .fallback {} faithful_upright rfl (by decide)
      (by decide) toTree_upright run silent starts (inside (by decide +kernel)) away
    exact ⟨next, after, again, checked, first ⟨_, nested⟩⟩

end Check.Checker
end Indentation
