import Mathlib.Data.List.Flatten
import Indentation.Proofs.Cascade
import Indentation.Proofs.Evenness
import Indentation.Proofs.Partition

/-! No place is reported twice. In a tree whose positions are those of its tokens, places
never go back along the numbers of the nodes, and a node shares its place with the next one
only if that is its first child. But a first child is measured by no node except the root:
members follow a brace, the end of a body of several lines is not its beginning, and a body
without braces that starts on the line of its statement is exempt. -/

namespace Indentation

namespace Outline

/-- Stands before another label, or stands where that one does and is no token. -/
def Label.Precedes (a b : Label) : Prop :=
  a.Before b ∨ a.kind ≠ .terminal ∧ a.line = b.line ∧ a.column = b.column

theorem Derived.exists_leaf {o : Outline} (derived : o.Derived) {label : Label} (member : label ∈ o.labels) :
    ∃ leaf ∈ o.leaves, leaf.line = label.line ∧ leaf.column = label.column := by
  have whole := derived
  induction derived with
  | @token own =>
    rw [labels, labelsAll, List.mem_singleton] at member
    exact ⟨own, List.mem_cons_self, by rw [member], by rw [member]⟩
  | @composite own first rest _ _ _ _ parts ih =>
    rw [labels] at member
    rcases List.mem_cons.1 member with rfl | below
    · obtain ⟨leaf, others, leaves, line, column⟩ := whole.leaves_eq
      exact ⟨leaf, by rw [leaves]; exact List.mem_cons_self, line, column⟩
    · obtain ⟨o, listed, inside⟩ := mem_labelsAll.1 below
      obtain ⟨leaf, found, stands⟩ := ih o listed inside (parts o listed)
      rw [leaves_node]
      exact ⟨leaf, mem_leavesAll.2 ⟨o, listed, found⟩, stands⟩

private theorem before_of_leaves {a b x y : Label} (before : x.Before y) (first : x.line = a.line ∧ x.column = a.column)
    (second : y.line = b.line ∧ y.column = b.column) : a.Before b := by
  unfold Label.Before at before ⊢
  omega

private theorem ordered_labelsAll {os : List Outline} (parts : ∀ o ∈ os, o.Derived)
    (each : ∀ o ∈ os, o.labels.Pairwise Label.Precedes)
    (between : os.Pairwise fun a b => ∀ x ∈ a.leaves, ∀ y ∈ b.leaves, x.Before y) :
    (labelsAll os).Pairwise Label.Precedes := by
  induction os with
  | nil => exact .nil
  | cons o rest ih =>
    obtain ⟨before, between⟩ := List.pairwise_cons.1 between
    rw [labelsAll, List.pairwise_append]
    refine ⟨each o List.mem_cons_self, ?_, ?_⟩
    · exact ih (fun o member => parts o (List.mem_cons_of_mem _ member))
        (fun o member => each o (List.mem_cons_of_mem _ member)) between
    · intro a left b right
      obtain ⟨other, listed, inside⟩ := mem_labelsAll.1 right
      obtain ⟨x, first, stands⟩ := (parts o List.mem_cons_self).exists_leaf left
      obtain ⟨y, second, starts⟩ := (parts other (List.mem_cons_of_mem _ listed)).exists_leaf inside
      exact .inl (before_of_leaves (before other listed x first y second) stands starts)

theorem Derived.labels_ordered {o : Outline} (derived : o.Derived) (rising : o.leaves.Pairwise Label.Before) :
    o.labels.Pairwise Label.Precedes := by
  have whole := derived
  induction derived with
  | token => exact List.pairwise_singleton _ _
  | @composite own first rest kind _ _ _ parts ih =>
    rw [labels, List.pairwise_cons]
    constructor
    · intro label below
      obtain ⟨start, others, leaves, line, column⟩ := whole.leaves_eq
      obtain ⟨leaf, found, stands⟩ := whole.exists_leaf (List.mem_cons_of_mem own below)
      rw [leaves] at found rising
      rcases List.mem_cons.1 found with rfl | later
      · exact .inr ⟨kind, line.symm.trans stands.1, column.symm.trans stands.2⟩
      · exact .inl (before_of_leaves ((List.pairwise_cons.1 rising).1 leaf later) ⟨line, column⟩ stands)
    · exact ordered_labelsAll parts (fun o member => ih o member (rising_part rising member) (parts o member))
        (pairwise_children rising)

end Outline

namespace Tree

variable {tree : Tree} {root : Outline} {hidden : List Token}

def placeOf (tree : Tree) (i : tree.Id) : Int × Int := ((tree.node i).line, (tree.node i).column)

theorem precedes_of_lt (faithful : root.Faithful) (flattened : root.toTree hidden = .ok tree) {i j : tree.Id}
    (less : i < j) : ∃ a b : Outline.Label, a.Fits (tree.node i) ∧ b.Fits (tree.node j) ∧ a.Precedes b := by
  obtain ⟨a, first, fits⟩ := fits_toTree flattened i
  obtain ⟨b, second, suits⟩ := fits_toTree flattened j
  obtain ⟨inside, rfl⟩ := List.getElem?_eq_some_iff.1 first
  obtain ⟨within, rfl⟩ := List.getElem?_eq_some_iff.1 second
  have ordered := faithful.derived.labels_ordered faithful.rising
  exact ⟨_, _, fits, suits, List.pairwise_iff_getElem.1 ordered _ _ inside within less⟩

/-- A node that stands where an earlier one does is the first child of the one before it. -/
theorem first_of_same_place (faithful : root.Faithful) (flattened : root.toTree hidden = .ok tree) {i j : tree.Id}
    (less : i < j) (same : tree.placeOf i = tree.placeOf j) :
    ∃ p rest, i ≤ p ∧ (tree.node p).children = j :: rest := by
  have inside := j.isLt
  have earlier : i.val < j.val := less
  let p : tree.Id := ⟨j.val - 1, by omega⟩
  have upto : i.val ≤ p.val := by simp only [p]; omega
  have next : p.val + 1 = j.val := by simp only [p]; omega
  obtain ⟨line, column⟩ := Prod.mk.inj same
  obtain ⟨a, b, fits, suits, precedes⟩ := precedes_of_lt faithful flattened (Fin.lt_def.2 (by omega) : p < j)
  have after : ¬ a.Before b := by
    intro before
    unfold Outline.Label.Before at before
    rw [← fits.line, ← fits.column, ← suits.line, ← suits.column] at before
    rcases Nat.lt_or_eq_of_le upto with middle | first
    · obtain ⟨c, d, start, stands, order⟩ := precedes_of_lt faithful flattened (Fin.lt_def.2 middle : i < p)
      unfold Outline.Label.Precedes Outline.Label.Before at order
      rw [← start.line, ← start.column, ← stands.line, ← stands.column] at order
      omega
    · have equal : i = p := Fin.ext first
      rw [← equal] at before
      omega
  have composite : (tree.node p).kind ≠ .terminal := by
    rw [fits.kind]
    exact (precedes.resolve_left after).1
  obtain ⟨_, o, _, shown, part⟩ := exists_part flattened p
  cases shown with
  | @node _ label children own below =>
    have some_child := (part.derived faithful.derived).children_ne_nil (own.kind ▸ composite)
    cases children with
    | nil => exact absurd rfl some_child
    | cons o others =>
      generalize ids : (tree.node p).children = listed at below
      cases below with
      | @cons _ c rest _ _ here _ _ =>
        obtain rfl : c = j := Fin.ext (here.trans next)
        exact ⟨p, rest, Fin.le_def.2 upto, ids⟩

theorem placeOf_first (faithful : root.Faithful) (flattened : root.toTree hidden = .ok tree) {p c : tree.Id}
    {rest : List tree.Id} (first : (tree.node p).children = c :: rest) : tree.placeOf c = tree.placeOf p := by
  obtain ⟨_, o, _, shown, part⟩ := exists_part flattened p
  have below := shown.forall₂
  rw [first] at below
  have fits := shown.fits
  cases part.derived faithful.derived with
  | token => cases below
  | composite _ line column =>
    cases below with
    | cons here _ =>
      refine Prod.ext ?_ ?_
      · exact here.fits.line.trans (line.symm.trans fits.line.symm)
      · exact here.fits.column.trans (column.symm.trans fits.column.symm)

theorem line_of_first (faithful : root.Faithful) (flattened : root.toTree hidden = .ok tree) {p c : tree.Id}
    {rest : List tree.Id} (first : (tree.node p).children = c :: rest) : (tree.node c).line = (tree.node p).line :=
  congrArg Prod.fst (placeOf_first faithful flattened first)

end Tree

namespace Check.Checker

variable {checker : Checker} {tree : Tree} {i : tree.Id}

theorem nested_between_ends (distinct : (tree.node i).children.Nodup) {c : tree.Id} (member : c ∈ tree.nested i) :
    (tree.node i).children.head? ≠ some c ∧ (tree.node i).children.getLast? ≠ some c := by
  obtain ⟨_, _, position, found, ⟨opening, after, _⟩, closing, inside, before, _⟩ := Tree.mem_nested.1 member
  have alone : ∀ other, (tree.node i).children[other]? = some c → position = other := fun other same =>
    (List.getElem?_inj (by omega) distinct).1 (found.trans same.symm)
  constructor
  · intro heads
    have := alone 0 (by rwa [← List.head?_eq_getElem?])
    omega
  · intro ends
    have := alone _ (by rwa [← List.getLast?_eq_getElem?])
    omega

theorem ending_ne_head (distinct : (tree.node i).children.Nodup) {last : tree.Id} (ends : tree.ending? i = some last) :
    (tree.node i).children.head? ≠ some last := by
  intro heads
  obtain ⟨rest, split⟩ : ∃ rest, (tree.node i).children = last :: rest := List.head?_eq_some_iff.1 heads
  have final := Tree.getLast?_of_ending? ends
  have alone : rest = [] := by
    cases rest with
    | nil => rfl
    | cons other more =>
      rw [split, List.getLast?_cons_cons] at final
      rw [split] at distinct
      exact absurd (List.mem_of_getLast? final) (List.nodup_cons.1 distinct).1
  rw [Tree.ending?, split, alone] at ends
  by_cases opens : (tree.node last).text = "\x7b" <;> simp [opens] at ends

theorem notMem_measured_of_first (preorder : Tree.Preorder tree) (other : (tree.node i).kind ≠ .sourceUnit)
    {c : tree.Id} {rest : List tree.Id} (first : (tree.node i).children = c :: rest)
    (level : (tree.node c).line = (tree.node i).line) : c ∉ checker.measured tree i := by
  have distinct := nodup_children preorder i
  have heads : (tree.node i).children.head? = some c := by rw [first]; rfl
  intro member
  by_cases braced : (tree.node i).kind.hasBraces
  · rw [measured, checked_nested braced, if_pos braced] at member
    rcases List.mem_append.1 member with inside | last
    · exact (nested_between_ends distinct inside).1 heads
    · exact ending_ne_head distinct (Option.mem_toList.1 last) heads
  · rw [measured, checked, if_neg other, if_neg braced, if_neg braced, List.append_nil] at member
    have loose := (List.mem_filter.1 member).2
    simp [isLoose, level] at loose

theorem nodup_measured (preorder : Tree.Preorder tree) (apart : checker.profile.ifThen ≠ checker.profile.ifElse)
    (i : tree.Id) : (checker.measured tree i).Nodup := by
  rw [measured, List.nodup_append]
  refine ⟨checker.nodup_checked preorder apart i, ?_, ?_⟩
  · split
    · cases tree.ending? i with
      | none => exact List.nodup_nil
      | some last => exact List.nodup_singleton last
    · exact List.nodup_nil
  · intro c member last found same
    split at found
    next braced =>
      have ends := Option.mem_toList.1 found
      rw [checked_nested braced] at member
      exact (nested_between_ends (nodup_children preorder i) member).2 (same ▸ Tree.getLast?_of_ending? ends)
    next => cases found

theorem nodup_places {root : Outline} {hidden : List Token} (faithful : root.Faithful)
    (flattened : root.toTree hidden = .ok tree) (apart : checker.profile.ifThen ≠ checker.profile.ifElse) :
    (((List.finRange tree.size).flatMap (checker.measured tree)).map tree.placeOf).Nodup := by
  have preorder := Tree.preorder_toTree flattened
  have only := only_root_of_labels flattened faithful.only
  have different : ∀ {p q a b}, a ∈ checker.measured tree p → b ∈ checker.measured tree q → a < b →
      tree.placeOf a ≠ tree.placeOf b := by
    intro p q a b left right less same
    obtain ⟨r, rest, upto, first⟩ := Tree.first_of_same_place faithful flattened less same
    obtain rfl : q = r := by
      have named := tree.linked (c := b) (p := r) (by rw [first]; exact List.mem_cons_self)
      exact Option.some.inj ((parent_of_measured right).symm.trans named)
    have level := Tree.line_of_first faithful flattened first
    refine notMem_measured_of_first preorder (only q ?_) first level right
    -- Only the root measures its first child, and nothing stands before that.
    rintro rfl
    exact Tree.ne_root_of_parent (parent_of_measured left) (Fin.ext (Nat.le_zero.1 upto))
  refine List.Nodup.map_on ?_ ?_
  · intro a left b right same
    obtain ⟨p, _, left⟩ := List.mem_flatMap.1 left
    obtain ⟨q, _, right⟩ := List.mem_flatMap.1 right
    rcases lt_trichotomy a b with less | equal | more
    · exact absurd same (different left right less)
    · exact equal
    · exact absurd same.symm (different right left more)
  · rw [List.nodup_flatMap]
    refine ⟨fun i _ => nodup_measured preorder apart i, ?_⟩
    refine (List.nodup_finRange tree.size).imp ?_
    intro p q other
    apply List.disjoint_left.2
    intro c first second
    exact other (Option.some.inj ((parent_of_measured first).symm.trans (parent_of_measured second)))

theorem places_findingsUnder (table : Corrections) (i : tree.Id) :
    ((checker.findingsUnder table i).map fun finding => (finding.line, finding.column)).Sublist
      ((checker.measured tree i).map tree.placeOf) := by
  rw [findingsUnder, measured, List.map_append, List.map_append, List.map_map, List.map_map]
  refine List.Sublist.append (List.filter_sublist.map _) ?_
  unfold misplacedEndUnder
  split
  next =>
    refine List.Sublist.map _ ?_
    rw [Option.toList_filter]
    exact List.filter_sublist
  next => exact List.nil_sublist _

/-- Everything that is found is found in a place of its own. -/
theorem check_distinct_places {root : Outline} {hidden : List Token} (faithful : root.Faithful) (options : Options)
    (profile : Profile) (apart : profile.ifThen ≠ profile.ifElse) :
    ∃ (tree : Tree) (s : State), root.toTree hidden = .ok tree ∧
      (Checker.mk options profile).check tree {} = .ok () s ∧
      (s.diagnostics options).Pairwise fun a b => (a.line, a.column) ≠ (b.line, b.column) := by
  let checker : Checker := ⟨options, profile⟩
  obtain ⟨tree, flattened⟩ := Tree.exists_toTree root hidden
  obtain ⟨s, checked, checks⟩ := checker.exists_checks (only_root_of_labels flattened faithful.only) {}
  refine ⟨tree, s, flattened, checked, ?_⟩
  have entered : tree.entered = List.finRange tree.size := (Tree.preorder_toTree flattened).entered
  have strays : ((checker.straysUnder tree s.corrections).map fun f => (f.line, f.column)).Nodup := by
    have places : (((List.finRange tree.size).flatMap (checker.measured tree)).map tree.placeOf).Nodup :=
      nodup_places faithful flattened apart
    refine places.sublist ?_
    rw [straysUnder, entered, List.map_flatMap, List.map_flatMap]
    exact List.Sublist.flatMap_right _ fun i _ => places_findingsUnder s.corrections i
  have uneven : (checker.unevenOutside tree s.flaggedLines).Pairwise fun a b => (a.line, a.column) ≠ (b.line, b.column) :=
    (unevenOutside_rising s.flaggedLines).imp fun less same => absurd (Prod.mk.inj same).1 (by omega)
  rw [State.diagnostics, List.pairwise_map, checks.findings, List.nil_append, List.pairwise_append]
  refine ⟨List.pairwise_map.1 strays, ?_, ?_⟩
  · split
    · exact uneven
    · exact .nil
  · intro a stray b found same
    split at found
    next =>
      apply (mem_unevenOutside.1 found).2.2.2
      exact (checks.flagged _).2 (.inr ⟨a, stray, (Prod.mk.inj same).1⟩)
    next => cases found

theorem faithful_slanted : slanted.Faithful := by decide

/-- The block, its brace and the root stand in one place, and the statement and its word in
another. -/
theorem check_distinct_places_slanted :
    slanted.Faithful ∧ ∃ (tree : Tree) (s : State), slanted.toTree [] = .ok tree ∧
      (Checker.mk .fallback {}).check tree {} = .ok () s ∧
      (s.diagnostics .fallback).Pairwise fun a b => (a.line, a.column) ≠ (b.line, b.column) :=
  ⟨faithful_slanted, check_distinct_places faithful_slanted .fallback {} (by decide)⟩

end Check.Checker
end Indentation
