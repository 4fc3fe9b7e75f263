import Indentation.Proofs.Preorder

/-! Flattening loses nothing. The outline can be read off the tree again by following the
listed children from the root; every subtree is a run of numbers; parents and children name
each other; and the tokens are those of the terminals and the comments, put in source order
without changing places where two of them start at one. -/

namespace Indentation

/-- Tokens put in source order. Those that start at one place keep the order they were given in. -/
structure Token.Sorted (given sorted : List Token) : Prop where
  perm : sorted.Perm given
  rising : sorted.Pairwise fun a b => a.line < b.line ∨ a.line = b.line ∧ a.column ≤ b.column
  stable : ∀ line column, sorted.filter (fun t => t.line = line ∧ t.column = column) =
    given.filter fun t => t.line = line ∧ t.column = column

theorem Token.before_iff {a b : Token} :
    a.before b = true ↔ a.line < b.line ∨ a.line = b.line ∧ a.column ≤ b.column := by
  simp [Token.before]

theorem Token.sorted_mergeSort (given : List Token) : Token.Sorted given (given.mergeSort Token.before) := by
  have trans : ∀ a b c : Token, a.before b = true → b.before c = true → a.before c = true := by
    intro a b c
    simp only [Token.before_iff]
    omega
  have total : ∀ a b : Token, (a.before b || b.before a) = true := by
    intro a b
    rw [Bool.or_eq_true, Token.before_iff, Token.before_iff]
    omega
  refine ⟨List.mergeSort_perm _ _, ?_, ?_⟩
  · exact (List.pairwise_mergeSort trans total given).imp Token.before_iff.1
  · intro line column
    -- The tokens of one place are a sorted part of what was given, so they are a part of the result.
    have level : (given.filter fun t => t.line = line ∧ t.column = column).Pairwise fun a b => a.before b = true := by
      apply List.pairwise_of_forall_mem_list
      intro a first b second
      have here := of_decide_eq_true (List.mem_filter.1 first).2
      have there := of_decide_eq_true (List.mem_filter.1 second).2
      rw [Token.before_iff]
      omega
    have part := (List.sublist_mergeSort trans total level List.filter_sublist).filter
      fun t => decide (t.line = line ∧ t.column = column)
    rw [List.filter_filter] at part
    simp only [Bool.and_self] at part
    exact (part.eq_of_length ((List.mergeSort_perm given Token.before).filter _).length_eq.symm).symm

private theorem Token.mem_iff_of_places {first second : List Token}
    (same : ∀ line column, first.filter (fun t => t.line = line ∧ t.column = column) =
      second.filter fun t => t.line = line ∧ t.column = column) (t : Token) : t ∈ first ↔ t ∈ second := by
  have found : ∀ ts : List Token, t ∈ ts ↔ t ∈ ts.filter fun u => u.line = t.line ∧ u.column = t.column := by simp
  rw [found first, found second, same]

/-- Tokens in source order are known once they are known place by place. -/
theorem Token.eq_of_rising {first second : List Token}
    (rising : first.Pairwise fun a b => a.line < b.line ∨ a.line = b.line ∧ a.column ≤ b.column)
    (also : second.Pairwise fun a b => a.line < b.line ∨ a.line = b.line ∧ a.column ≤ b.column)
    (same : ∀ line column, first.filter (fun t => t.line = line ∧ t.column = column) =
      second.filter fun t => t.line = line ∧ t.column = column) : first = second := by
  induction first generalizing second with
  | nil =>
    refine (List.eq_nil_iff_forall_not_mem.2 ?_).symm
    intro t member
    cases (Token.mem_iff_of_places same t).2 member
  | cons a rest ih =>
    cases second with
    | nil => cases (Token.mem_iff_of_places same a).1 List.mem_cons_self
    | cons b others =>
      obtain ⟨least, ordered⟩ := List.pairwise_cons.1 rising
      obtain ⟨lowest, arranged⟩ := List.pairwise_cons.1 also
      -- Each of the two first tokens stands no later than the other.
      have level : b.line = a.line ∧ b.column = a.column := by
        rcases List.mem_cons.1 ((Token.mem_iff_of_places same a).1 List.mem_cons_self) with rfl | later
        · exact ⟨rfl, rfl⟩
        · rcases List.mem_cons.1 ((Token.mem_iff_of_places same b).2 List.mem_cons_self) with rfl | after
          · exact ⟨rfl, rfl⟩
          · have := lowest a later
            have := least b after
            omega
      have heads := same a.line a.column
      simp only [List.filter_cons, level, and_self, decide_true, ↓reduceIte, List.cons.injEq] at heads
      obtain ⟨rfl, _⟩ := heads
      rw [ih ordered arranged]
      intro line column
      have both := same line column
      by_cases stands : a.line = line ∧ a.column = column
      · simpa [List.filter_cons, stands] using both
      · simpa [List.filter_cons, stands] using both

theorem Token.Sorted.unique {given first second : List Token} (one : Token.Sorted given first)
    (other : Token.Sorted given second) : first = second :=
  Token.eq_of_rising one.rising other.rising fun line column =>
    (one.stable line column).trans (other.stable line column).symm

theorem Token.Sorted.filter {given sorted : List Token} (order : Token.Sorted given sorted) (p : Token → Bool) :
    Token.Sorted (given.filter p) (sorted.filter p) := by
  refine ⟨order.perm.filter p, order.rising.filter p, ?_⟩
  intro line column
  rw [List.filter_comm, order.stable line column, List.filter_comm]

namespace Outline

/-- What a node keeps of a label: no text counts as an empty one, and only tokens have a
channel and a type. -/
def Label.kept (label : Label) : Label :=
  { label with
    text := some (label.text.getD "")
    channel := if label.kind = .terminal then label.channel else 0
    type := if label.kind = .terminal then label.type else 0 }

mutual

def kept : Outline → Outline
  | node label children => node label.kept (keptAll children)

def keptAll : List Outline → List Outline
  | [] => []
  | o :: rest => kept o :: keptAll rest

end

theorem size_le_sizeAll {o : Outline} {os : List Outline} (member : o ∈ os) : o.size ≤ sizeAll os := by
  induction os with
  | nil => cases member
  | cons first rest ih =>
    rw [sizeAll]
    rcases List.mem_cons.1 member with rfl | later
    · omega
    · have below := ih later
      omega

theorem Part.size_le {part o : Outline} (inside : part.Part o) : part.size ≤ o.size := by
  induction inside with
  | whole => exact Nat.le_refl _
  | inner member _ ih =>
    have below := size_le_sizeAll member
    rw [size]
    omega

mutual

theorem size_kept (o : Outline) : o.kept.size = o.size := by
  cases o with
  | node label children => rw [kept, size, size, sizeAll_keptAll children]

theorem sizeAll_keptAll (os : List Outline) : sizeAll (keptAll os) = sizeAll os := by
  cases os with
  | nil => rfl
  | cons o rest => rw [keptAll, sizeAll, sizeAll, size_kept o, sizeAll_keptAll rest]

end

end Outline

/-- The label that is read off a node. -/
def Node.label {n : Nat} (node : Node n) : Outline.Label where
  kind := node.kind
  text := some node.text
  line := node.line
  column := node.column
  stopLine := node.stopLine
  channel := (node.token.map (·.channel)).getD 0
  type := (node.token.map (·.type)).getD 0

theorem Outline.Label.Fits.label_eq {n : Nat} {label : Label} {node : Node n} (fits : label.Fits node) :
    node.label = label.kept := by
  unfold Node.label Label.kept
  rw [fits.kind, fits.line, fits.column, fits.stopLine, fits.text, fits.token, Label.token?]
  by_cases single : label.kind = .terminal
  · simp [single]
  · simp [single]

namespace Tree

variable {tree : Tree}

/-- The outline below a node, read off the listed children for so many levels. -/
def outlineWithin (tree : Tree) : (levels : Nat) → tree.Id → Outline
  | 0, i => .node (tree.node i).label []
  | levels + 1, i => .node (tree.node i).label ((tree.node i).children.map (outlineWithin tree levels))

mutual

/-- Levels beyond the size of the outline make no difference. -/
theorem Shows.outlineWithin {levels : Nat} {i : tree.Id} (o : Outline) (shows : Shows tree i o)
    (enough : o.size ≤ levels) : tree.outlineWithin levels i = o.kept := by
  cases o with
  | node label children =>
    rw [Outline.size] at enough
    cases shows with
    | node fits below =>
      cases levels with
      | zero => omega
      | succ levels =>
        rw [Tree.outlineWithin, Outline.kept, fits.label_eq, ShowsAll.outlineWithin children below (by omega)]

theorem ShowsAll.outlineWithin {levels number : Nat} {ids : List tree.Id} (os : List Outline)
    (shows : ShowsAll tree number ids os) (enough : Outline.sizeAll os ≤ levels) :
    ids.map (tree.outlineWithin levels) = Outline.keptAll os := by
  cases os with
  | nil =>
    cases shows
    rfl
  | cons o rest =>
    rw [Outline.sizeAll] at enough
    cases shows with
    | cons here first later =>
      rw [List.map_cons, Outline.keptAll, Shows.outlineWithin o first (by omega),
        ShowsAll.outlineWithin rest later (by omega)]

end

theorem Inside.of_child {p c i : tree.Id} (named : (tree.node c).parent = some p) (inside : Inside tree c i) :
    Inside tree p i := by
  induction inside with
  | here => exact .deeper named .here
  | deeper above _ ih => exact .deeper above ih

mutual

/-- What stands at or below a node is a run of numbers that begins with the node's own. -/
theorem Shows.inside_iff (preorder : Preorder tree) {i j : tree.Id} (o : Outline) (shows : Shows tree i o) :
    Inside tree i j ↔ i.val ≤ j.val ∧ j.val < i.val + o.size := by
  cases o with
  | node label children =>
    cases shows with
    | node fits below =>
      have deeper := ShowsAll.inside_iff (j := j) preorder children below
      rw [Outline.size]
      constructor
      · intro inside
        rcases inside.down preorder with rfl | lower
        · omega
        · have range := deeper.1 lower
          omega
      · rintro ⟨lower, upper⟩
        by_cases here : j = i
        · rw [here]
          exact .here
        · have other : j.val ≠ i.val := fun same => here (Fin.ext same)
          obtain ⟨c, listed, inside⟩ := deeper.2 (by omega)
          exact .of_child (tree.linked listed) inside

theorem ShowsAll.inside_iff (preorder : Preorder tree) {number : Nat} {j : tree.Id} {ids : List tree.Id}
    (os : List Outline) (shows : ShowsAll tree number ids os) :
    (∃ c ∈ ids, Inside tree c j) ↔ number ≤ j.val ∧ j.val < number + Outline.sizeAll os := by
  cases os with
  | nil =>
    cases shows
    rw [Outline.sizeAll]
    simp only [List.not_mem_nil, false_and, exists_false, false_iff]
    omega
  | cons o rest =>
    cases shows with
    | @cons _ c _ _ _ here first later =>
      have head := Shows.inside_iff (j := j) preorder o first
      have tail := ShowsAll.inside_iff (j := j) preorder rest later
      rw [List.exists_mem_cons_iff, head, tail, Outline.sizeAll]
      omega

end

end Tree

/-- Flattening an outline. The tree is numbered in the order in which a walk enters it, and
what stands at or below a node is a run of numbers as long as the outline read off there.
Parents and children name each other. The outline read off the root is the one that was
flattened, and a node has a token just if it is a terminal. -/
theorem Outline.toTree_lossless (root : Outline) (hidden : List Token) :
    ∃ tree, root.toTree hidden = .ok tree ∧
      tree.walk.filterMap Tree.Visit.entered? = List.finRange tree.size ∧
      (∀ i j : tree.Id, Tree.Inside tree i j ↔
        i.val ≤ j.val ∧ j.val < i.val + (tree.outlineWithin tree.size i).size) ∧
      (∀ p c : tree.Id, c ∈ (tree.node p).children ↔ (tree.node c).parent = some p) ∧
      (∀ p : tree.Id, (tree.node p).children.Pairwise (· < ·) ∧ ∀ c ∈ (tree.node p).children, p < c) ∧
      (∀ levels, tree.size ≤ levels → tree.outlineWithin levels tree.root = root.kept) ∧
      (∀ i : tree.Id, ∃ label, root.labels[i.val]? = some label ∧ (tree.node i).label = label.kept ∧
        (tree.node i).token =
          if (tree.node i).kind = .terminal then
            some ⟨(tree.node i).text, (tree.node i).line, (tree.node i).column, label.channel, label.type⟩
          else none) ∧
      Token.Sorted (root.labels.filterMap Label.token? ++ hidden) tree.tokens := by
  obtain ⟨tree, flattened⟩ := Tree.exists_toTree root hidden
  have preorder := Tree.preorder_toTree flattened
  have size := Tree.size_toTree flattened
  refine ⟨tree, flattened, preorder.entered, ?_, ?_, fun p => ⟨preorder.rising p, fun c => preorder.later⟩, ?_, ?_, ?_⟩
  · intro i j
    obtain ⟨_, o, _, shows, part⟩ := Tree.exists_part flattened i
    have within := part.size_le
    rw [shows.outlineWithin o (by omega), Outline.size_kept]
    exact shows.inside_iff preorder o
  · intro p c
    exact ⟨tree.linked, preorder.listed⟩
  · intro levels enough
    exact (Tree.shows_toTree flattened).outlineWithin root (by omega)
  · intro i
    obtain ⟨label, found, fits⟩ := Tree.fits_toTree flattened i
    refine ⟨label, found, fits.label_eq, ?_⟩
    rw [fits.token, fits.kind, fits.text, fits.line, fits.column, Label.token?]
  · rw [(Tree.holds_of_accepted flattened).tokens, ← Outline.tokens_eq]
    exact Token.sorted_mergeSort _

end Indentation
