import Indentation.Proofs.Preorder

/-! Outlines whose positions are those of their tokens. A node is a single token exactly
when it has no children, tokens follow one another from left to right, and everything else
starts with its first child and ends with its last. In the tree of such an outline no node
starts on an earlier line than its parent. -/

namespace Indentation

namespace Outline

mutual

/-- The labels of the childless parts, from left to right. -/
def leaves : Outline → List Label
  | node label [] => [label]
  | node _ (first :: rest) => leaves first ++ leavesAll rest

def leavesAll : List Outline → List Label
  | [] => []
  | o :: rest => leaves o ++ leavesAll rest

end

/-- Starts earlier in the source. -/
def Label.Before (a b : Label) : Prop := a.line < b.line ∨ a.line = b.line ∧ a.column < b.column

instance (a b : Label) : Decidable (a.Before b) :=
  inferInstanceAs (Decidable (a.line < b.line ∨ a.line = b.line ∧ a.column < b.column))

/-- Only tokens say where they stand. -/
inductive Derived : Outline → Prop where
  | token {label : Label} (kind : label.kind = .terminal) (stopLine : label.stopLine = label.line) :
      Derived (node label [])
  | composite {label : Label} {first : Outline} {rest : List Outline} (kind : label.kind ≠ .terminal)
      (line : label.line = first.label.line) (column : label.column = first.label.column)
      (stopLine : (first :: rest).getLast?.map (·.label.stopLine) = some label.stopLine)
      (parts : ∀ o ∈ first :: rest, Derived o) : Derived (node label (first :: rest))

structure Faithful (root : Outline) : Prop where
  derived : root.Derived
  rising : root.leaves.Pairwise Label.Before
  only : ∀ label ∈ root.labels.tail, label.kind ≠ .sourceUnit

/-- A single token, or a node that starts with its first child and ends with its last. -/
def Label.derives (label : Label) : List Outline → Bool
  | [] => label.kind = .terminal && label.stopLine = label.line
  | first :: rest => label.kind ≠ .terminal && label.line = first.label.line && label.column = first.label.column &&
      (first :: rest).getLast?.map (·.label.stopLine) = some label.stopLine

mutual

def derives : Outline → Bool
  | node label children => label.derives children && derivesAll children

def derivesAll : List Outline → Bool
  | [] => true
  | o :: rest => derives o && derivesAll rest

end

theorem derived_node {label : Label} {children : List Outline} :
    (node label children).Derived ↔ label.derives children = true ∧ ∀ o ∈ children, o.Derived := by
  constructor
  · intro derived
    cases derived with
    | token kind stopLine => simp [Label.derives, kind, stopLine]
    | composite kind line column stopLine parts =>
      exact ⟨by simpa [Label.derives, kind, line, column] using stopLine, parts⟩
  · rintro ⟨own, parts⟩
    cases children with
    | nil =>
      simp only [Label.derives, Bool.and_eq_true, decide_eq_true_eq] at own
      exact .token own.1 own.2
    | cons first rest =>
      simp only [Label.derives, Bool.and_eq_true, decide_eq_true_eq] at own
      exact .composite own.1.1.1 own.1.1.2 own.1.2 own.2 parts

mutual

theorem derives_iff (o : Outline) : o.derives = true ↔ o.Derived := by
  cases o with
  | node label children => rw [derived_node, derives, Bool.and_eq_true, derivesAll_iff children]

theorem derivesAll_iff (os : List Outline) : derivesAll os = true ↔ ∀ o ∈ os, o.Derived := by
  cases os with
  | nil => simp [derivesAll]
  | cons o rest => rw [derivesAll, Bool.and_eq_true, derives_iff o, derivesAll_iff rest, List.forall_mem_cons]

end

instance (o : Outline) : Decidable o.Derived := decidable_of_iff _ o.derives_iff

instance (root : Outline) : Decidable root.Faithful :=
  decidable_of_iff
    (root.Derived ∧ root.leaves.Pairwise Label.Before ∧ ∀ label ∈ root.labels.tail, label.kind ≠ .sourceUnit)
    ⟨fun ⟨derived, rising, only⟩ => ⟨derived, rising, only⟩,
      fun faithful => ⟨faithful.derived, faithful.rising, faithful.only⟩⟩

theorem leaves_node {label : Label} {first : Outline} {rest : List Outline} :
    (node label (first :: rest)).leaves = leavesAll (first :: rest) := by
  rw [leaves, leavesAll]

theorem leaves_of_ne_nil {label : Label} {children : List Outline} (nonempty : children ≠ []) :
    (node label children).leaves = leavesAll children := by
  cases children with
  | nil => exact absurd rfl nonempty
  | cons first rest => exact leaves_node

theorem mem_leavesAll {os : List Outline} {leaf : Label} : leaf ∈ leavesAll os ↔ ∃ o ∈ os, leaf ∈ o.leaves := by
  induction os with
  | nil => simp [leavesAll]
  | cons o rest ih => simp [leavesAll, ih]

theorem leaves_sublist_of_mem {os : List Outline} {o : Outline} (member : o ∈ os) :
    o.leaves.Sublist (leavesAll os) := by
  induction os with
  | nil => cases member
  | cons first rest ih =>
    rw [leavesAll]
    rcases List.mem_cons.1 member with rfl | later
    · exact List.sublist_append_left _ _
    · exact (ih later).trans (List.sublist_append_right _ _)

theorem Part.leaves_sublist {part o : Outline} (inside : part.Part o) : part.leaves.Sublist o.leaves := by
  induction inside with
  | whole => exact List.Sublist.refl _
  | @inner label children o member _ ih =>
    cases children with
    | nil => cases member
    | cons first rest =>
      rw [leaves_node]
      exact ih.trans (leaves_sublist_of_mem member)

theorem Part.derived {part o : Outline} (inside : part.Part o) (derived : o.Derived) : part.Derived := by
  induction inside with
  | whole => exact derived
  | inner member _ ih =>
    cases derived with
    | token => cases member
    | composite _ _ _ _ parts => exact ih (parts _ member)

theorem Derived.leaves_eq {o : Outline} (derived : o.Derived) :
    ∃ leaf rest, o.leaves = leaf :: rest ∧ leaf.line = o.label.line ∧ leaf.column = o.label.column := by
  induction derived with
  | @token label => exact ⟨label, [], rfl, rfl, rfl⟩
  | @composite label first others _ line column _ _ ih =>
    obtain ⟨leaf, rest, leaves, starts, stands⟩ := ih first List.mem_cons_self
    exact ⟨leaf, rest ++ leavesAll others, by rw [leaves_node, leavesAll, leaves]; rfl, starts.trans line.symm,
      stands.trans column.symm⟩

theorem Derived.exists_last {o : Outline} (derived : o.Derived) : ∃ leaf ∈ o.leaves, leaf.line = o.label.stopLine := by
  induction derived with
  | @token label _ stopLine => exact ⟨label, List.mem_cons_self, stopLine.symm⟩
  | @composite label first others _ _ _ stopLine _ ih =>
    obtain ⟨last, final, same⟩ := Option.map_eq_some_iff.1 stopLine
    have member := List.mem_of_getLast? final
    obtain ⟨leaf, inside, ends⟩ := ih last member
    refine ⟨leaf, ?_, ends.trans same⟩
    rw [leaves_node]
    exact mem_leavesAll.2 ⟨last, member, inside⟩

theorem Derived.part {label : Label} {children : List Outline} {o : Outline} (derived : (node label children).Derived)
    (member : o ∈ children) : o.Derived :=
  Part.derived (.inner member .whole) derived

theorem Derived.starts {label : Label} {first : Outline} {rest : List Outline}
    (derived : (node label (first :: rest)).Derived) : label.line = first.label.line := by
  cases derived with
  | composite _ line => exact line

theorem Derived.children_ne_nil {label : Label} {children : List Outline} (derived : (node label children).Derived)
    (kind : label.kind ≠ .terminal) : children ≠ [] := by
  cases derived with
  | token single => exact absurd single kind
  | composite => exact List.cons_ne_nil _ _

theorem Derived.eq_token {o : Outline} (derived : o.Derived) (kind : o.label.kind = .terminal) :
    o = node o.label [] ∧ o.label.stopLine = o.label.line := by
  cases derived with
  | token _ stopLine => exact ⟨rfl, stopLine⟩
  | composite other => exact absurd kind other

theorem Derived.line_le {label : Label} {children : List Outline} {o : Outline}
    (derived : (node label children).Derived) (rising : (node label children).leaves.Pairwise Label.Before)
    (member : o ∈ children) : label.line ≤ o.label.line := by
  have inside : o.Part (node label children) := .inner member .whole
  obtain ⟨first, rest, leaves, line, _⟩ := derived.leaves_eq
  obtain ⟨leaf, others, below, same, _⟩ := (inside.derived derived).leaves_eq
  have found : leaf ∈ first :: rest := by
    rw [← leaves]
    exact inside.leaves_sublist.subset (by rw [below]; exact List.mem_cons_self)
  rw [leaves] at rising
  change label.line ≤ o.label.line
  have start : first.line = label.line := line
  rcases List.mem_cons.1 found with rfl | later
  · omega
  · rcases (List.pairwise_cons.1 rising).1 leaf later with earlier | ⟨level, _⟩
    · omega
    · omega

end Outline

namespace Tree

variable {tree : Tree}

theorem ShowsAll.forall₂ {number : Nat} {ids : List tree.Id} {os : List Outline} (shows : ShowsAll tree number ids os) :
    List.Forall₂ (Shows tree) ids os := by
  induction os generalizing number ids with
  | nil =>
    cases shows
    exact .nil
  | cons o rest ih =>
    cases shows with
    | cons _ first later => exact .cons first (ih later)

theorem Shows.forall₂ {i : tree.Id} {o : Outline} (shows : Shows tree i o) :
    List.Forall₂ (Shows tree) (tree.node i).children o.children := by
  cases shows with
  | node _ below => exact below.forall₂

theorem exists_shown {ids : List tree.Id} {os : List Outline} (shown : List.Forall₂ (Shows tree) ids os) {i : tree.Id}
    (listed : i ∈ ids) : ∃ o ∈ os, Shows tree i o := by
  induction shown with
  | nil => cases listed
  | cons first _ ih =>
    rcases List.mem_cons.1 listed with rfl | later
    · exact ⟨_, List.mem_cons_self, first⟩
    · obtain ⟨o, member, shows⟩ := ih later
      exact ⟨o, List.mem_cons_of_mem _ member, shows⟩

/-- What holds between outlines in a row holds between the nodes that show them. -/
theorem pairwise_of_shows {ids : List tree.Id} {os : List Outline} {R : tree.Id → tree.Id → Prop}
    {S : Outline → Outline → Prop} (shown : List.Forall₂ (Shows tree) ids os) (ordered : os.Pairwise S)
    (carry : ∀ {a b : tree.Id} {first second : Outline}, Shows tree a first → Shows tree b second → S first second → R a b) :
    ids.Pairwise R := by
  induction shown with
  | nil => exact .nil
  | cons first rest ih =>
    obtain ⟨here, ordered⟩ := List.pairwise_cons.1 ordered
    refine List.pairwise_cons.2 ⟨?_, ih ordered⟩
    intro i member
    obtain ⟨o, inside, shows⟩ := exists_shown rest member
    exact carry first shows (here o inside)

theorem Shows.fits {i : tree.Id} {o : Outline} (shows : Shows tree i o) : o.label.Fits (tree.node i) := by
  cases shows with
  | node fits _ => exact fits

theorem Shows.exists_child {i c : tree.Id} {o : Outline} (shows : Shows tree i o) (listed : c ∈ (tree.node i).children) :
    ∃ child ∈ o.children, Shows tree c child :=
  exists_shown shows.forall₂ listed

/-- No node starts on an earlier line than its parent. -/
theorem parent_line_le {root : Outline} {hidden : List Token} (faithful : root.Faithful)
    (flattened : root.toTree hidden = .ok tree) {i p : tree.Id} (named : (tree.node i).parent = some p) :
    (tree.node p).line ≤ (tree.node i).line := by
  obtain ⟨_, o, _, shown, part⟩ := exists_part flattened p
  have listed := (preorder_toTree flattened).listed named
  obtain ⟨child, member, below⟩ := shown.exists_child listed
  rw [shown.fits.line, below.fits.line]
  cases o with
  | node label children =>
    exact (part.derived faithful.derived).line_le (faithful.rising.sublist part.leaves_sublist) member

theorem childless_of_terminal {root : Outline} {hidden : List Token} (faithful : root.Faithful)
    (flattened : root.toTree hidden = .ok tree) {i : tree.Id} (single : (tree.node i).kind = .terminal) :
    (tree.node i).children = [] ∧ (tree.node i).stopLine = (tree.node i).line := by
  obtain ⟨_, o, _, shown, part⟩ := exists_part flattened i
  have fits := shown.fits
  rw [fits.kind] at single
  obtain ⟨same, stopLine⟩ := (part.derived faithful.derived).eq_token single
  refine ⟨?_, by rw [fits.stopLine, fits.line, stopLine]⟩
  rw [same] at shown
  cases ids : (tree.node i).children with
  | nil => rfl
  | cons c rest =>
    obtain ⟨child, member, _⟩ := shown.exists_child (c := c) (by rw [ids]; exact List.mem_cons_self)
    cases member

end Tree
end Indentation
