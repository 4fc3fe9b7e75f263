import Indentation.Proofs.Distinctness
import Indentation.Proofs.Formatting
import Indentation.Proofs.Reconstruction
import Indentation.Proofs.Searching

/-! The anchor is the first node of its line. Where positions are those of the tokens, they
never go back along the numbers of the nodes, so what could stand before the anchor on its
line is its parent or something in a sibling listed before it. But a parent of the same line
that is no source unit would have been climbed to, and a sibling that reaches the line ends
there, for its last token does. -/

namespace Indentation.Tree

variable {tree : Tree}

/-- Nothing on the node's line stands before it. -/
def Foremost (tree : Tree) (i : tree.Id) : Prop :=
  ∀ j : tree.Id, (tree.node j).line = (tree.node i).line → (tree.node i).column ≤ (tree.node j).column

mutual

theorem Shows.exists_last {i : tree.Id} (o : Outline) (shows : Shows tree i o) (derived : o.Derived) :
    ∃ last : tree.Id, last.val + 1 = i.val + o.size ∧ (tree.node last).kind = .terminal ∧
      (tree.node last).line = o.label.stopLine := by
  cases o with
  | node label children =>
    cases shows with
    | node fits below =>
      have final := ShowsAll.exists_last label.stopLine children below
      cases derived with
      | token kind stopLine =>
        exact ⟨i, by simp [Outline.size, Outline.sizeAll], fits.kind.trans kind, fits.line.trans stopLine.symm⟩
      | composite _ _ _ stopLine parts =>
        obtain ⟨last, number, kind, line⟩ := final parts stopLine
        exact ⟨last, by rw [Outline.size]; omega, kind, line⟩

theorem ShowsAll.exists_last {number : Nat} {ids : List tree.Id} (stopLine : Int) (os : List Outline)
    (shows : ShowsAll tree number ids os) (parts : ∀ o ∈ os, o.Derived)
    (ends : os.getLast?.map (·.label.stopLine) = some stopLine) :
    ∃ last : tree.Id, last.val + 1 = number + Outline.sizeAll os ∧ (tree.node last).kind = .terminal ∧
      (tree.node last).line = stopLine := by
  cases os with
  | nil => cases ends
  | cons o others =>
    obtain ⟨here, rest⟩ := List.forall_mem_cons.1 parts
    cases shows with
    | cons _ first later =>
      have final := ShowsAll.exists_last stopLine others later rest
      rw [Outline.sizeAll]
      cases others with
      | nil =>
        obtain ⟨last, number, kind, line⟩ := Shows.exists_last o first here
        exact ⟨last, by rw [Outline.sizeAll]; omega, kind, line.trans (Option.some.inj ends)⟩
      | cons next rest =>
        obtain ⟨last, number, kind, line⟩ := final ends
        exact ⟨last, by omega, kind, line⟩

end

theorem Preorder.leads_anchorOf (preorder : Preorder tree) (i : tree.Id) : Leads tree (tree.anchorOf i) := by
  obtain ⟨_, reached⟩ := preorder.reached i
  obtain ⟨places, way⟩ := reached.exists_way
  obtain ⟨_, anchor, _, rounds, found⟩ := way.exists_rounds List.nodup_nil nofun (Nat.add_zero tree.size)
  obtain rfl := Except.ok.inj ((preorder.anchor_eq i).symm.trans found)
  exact rounds.leads

theorem Inside.le (preorder : Preorder tree) {top i : tree.Id} (inside : Inside tree top i) : top ≤ i := by
  induction inside with
  | here => exact Fin.le_refl _
  | deeper named _ ih => exact Fin.le_trans ih (Fin.le_of_lt (preorder.parent_lt named))

section Places

variable {root : Outline} {hidden : List Token} (faithful : root.Faithful) (flattened : root.toTree hidden = .ok tree)
include flattened

theorem lt_of_inside_earlier {p i s j : tree.Id} (listed : i ∈ (tree.node p).children)
    (earlier : s ∈ (tree.node p).children.takeWhile (· ≠ i)) (inside : Inside tree s j) : j < i := by
  have preorder := preorder_toTree flattened
  have less := preorder.lt_of_mem_takeWhile listed earlier
  obtain ⟨_, o, _, shows, _⟩ := exists_part flattened s
  have outside : ¬ Inside tree s i := by
    intro enclosed
    cases enclosed with
    | here => exact absurd less (Fin.lt_irrefl _)
    | deeper named above =>
      obtain rfl : _ = p := Option.some.inj (named.symm.trans (tree.linked listed))
      have after := preorder.later ((List.takeWhile_sublist _).subset earlier)
      exact absurd after (Fin.not_lt.2 (above.le preorder))
  rw [shows.inside_iff preorder] at inside outside
  have less : s.val < i.val := less
  exact Fin.lt_def.2 (by omega)

theorem inside_of_between {top i j : tree.Id} (inside : Inside tree top i) (lower : top ≤ j) (upper : j ≤ i) :
    Inside tree top j := by
  have preorder := preorder_toTree flattened
  obtain ⟨_, o, _, shows, _⟩ := exists_part flattened top
  rw [shows.inside_iff preorder] at inside ⊢
  have lower : top.val ≤ j.val := lower
  have upper : j.val ≤ i.val := upper
  omega

include faithful

theorem exists_end (i : tree.Id) :
    ∃ last : tree.Id, (tree.node last).kind = .terminal ∧ (tree.node last).line = (tree.node i).stopLine ∧
      Inside tree i last ∧ ∀ j, Inside tree i j → j ≤ last := by
  have preorder := preorder_toTree flattened
  obtain ⟨_, o, _, shows, part⟩ := exists_part flattened i
  obtain ⟨last, number, kind, line⟩ := shows.exists_last o (part.derived faithful.derived)
  have positive := o.size_pos
  refine ⟨last, kind, line.trans shows.fits.stopLine.symm, ?_, ?_⟩
  · rw [shows.inside_iff preorder]
    omega
  · intro j inside
    rw [shows.inside_iff preorder] at inside
    exact Fin.le_def.2 (by omega)

theorem exists_first {i : tree.Id} (composite : (tree.node i).kind ≠ .terminal) :
    ∃ c rest, (tree.node i).children = c :: rest := by
  obtain ⟨_, o, _, shows, part⟩ := exists_part flattened i
  have kind := shows.fits.kind
  have below := shows.forall₂
  cases part.derived faithful.derived with
  | token single => exact absurd (kind.trans single) composite
  | composite =>
    generalize (tree.node i).children = listed at below
    cases below with
    | @cons c _ rest => exact ⟨c, rest, rfl⟩

theorem exists_start (i : tree.Id) :
    ∃ first : tree.Id, (tree.node first).kind = .terminal ∧ tree.placeOf first = tree.placeOf i := by
  induction remaining : tree.size - i.val using Nat.strongRecOn generalizing i with
  | ind remaining ih =>
    by_cases single : (tree.node i).kind = .terminal
    · exact ⟨i, single, rfl⟩
    · obtain ⟨c, rest, children⟩ := exists_first faithful flattened single
      have listed : c ∈ (tree.node i).children := children ▸ List.mem_cons_self
      have later : i.val < c.val := (preorder_toTree flattened).later listed
      obtain ⟨first, kind, place⟩ := ih (tree.size - c.val) (by omega) c rfl
      exact ⟨first, kind, place.trans (placeOf_first faithful flattened children)⟩

theorem place_le {i j : tree.Id} (upto : i ≤ j) :
    (tree.node i).line < (tree.node j).line ∨
      (tree.node i).line = (tree.node j).line ∧ (tree.node i).column ≤ (tree.node j).column := by
  rcases Fin.lt_or_eq_of_le upto with less | rfl
  · obtain ⟨a, b, fits, suits, precedes⟩ := precedes_of_lt faithful flattened less
    unfold Outline.Label.Precedes Outline.Label.Before at precedes
    rw [fits.line, fits.column, suits.line, suits.column]
    omega
  · exact .inr ⟨rfl, Int.le_refl _⟩

/-- A token stands before everything that follows it. -/
theorem place_lt {i j : tree.Id} (single : (tree.node i).kind = .terminal) (less : i < j) :
    (tree.node i).line < (tree.node j).line ∨
      (tree.node i).line = (tree.node j).line ∧ (tree.node i).column < (tree.node j).column := by
  obtain ⟨a, b, fits, suits, precedes⟩ := precedes_of_lt faithful flattened less
  rw [fits.kind] at single
  rcases precedes with before | ⟨other, _⟩
  · rw [fits.line, fits.column, suits.line, suits.column]
    exact before
  · exact absurd single other

theorem line_le {i j : tree.Id} (upto : i ≤ j) : (tree.node i).line ≤ (tree.node j).line := by
  have place := place_le faithful flattened upto
  omega

/-- Nothing in a sibling before a node that leads its line lies on that line, for the sibling
would end there. -/
theorem Leads.other_line {i p s j : tree.Id} (leads : Leads tree i) (named : (tree.node i).parent = some p)
    (earlier : s ∈ (tree.node p).children.takeWhile (· ≠ i)) (inside : Inside tree s j) :
    (tree.node j).line ≠ (tree.node i).line := by
  intro level
  obtain ⟨listed, others⟩ := leads.first_listed named
  obtain ⟨last, _, ends, within, upto⟩ := exists_end faithful flattened s
  have lower := line_le faithful flattened (upto j inside)
  have upper := line_le faithful flattened (Fin.le_of_lt (lt_of_inside_earlier flattened listed earlier within))
  exact others s earlier (by omega)

theorem Leads.foremost {i : tree.Id} (leads : Leads tree i) : Foremost tree i := by
  have preorder := preorder_toTree flattened
  intro j level
  rcases le_or_gt i j with after | before
  · have places := place_le faithful flattened after
    omega
  have other : i ≠ tree.root := by
    rintro rfl
    exact absurd before (Nat.not_lt_zero _)
  obtain ⟨p, named⟩ := preorder.exists_parent other
  have listed := preorder.listed named
  have above := preorder.parent_lt named
  rcases le_or_gt j p with outer | inner
  · -- The parent lies on the line too, so it is the root, and so is the other node.
    have lower := line_le faithful flattened outer
    have upper := line_le faithful flattened (Fin.le_of_lt above)
    have unit := (leads.apart named).resolve_right (by omega)
    obtain rfl : p = tree.root := by
      by_contra inside
      exact Check.Checker.only_root_of_labels flattened faithful.only p inside unit
    obtain rfl : j = tree.root := Fin.ext (Nat.le_zero.1 outer)
    cases first : (tree.node tree.root).children with
    | nil =>
      rw [first] at listed
      cases listed
    | cons c rest =>
      obtain ⟨line, column⟩ := Prod.mk.inj (placeOf_first faithful flattened first)
      by_cases same : i = c
      · rw [same, column]
      · have earlier : c ∈ (tree.node tree.root).children.takeWhile (· ≠ i) := by
          rw [first, List.takeWhile_cons_of_pos (by simpa using Ne.symm same)]
          exact List.mem_cons_self
        exact absurd (line.trans level) (leads.other_line faithful flattened named earlier .here)
  · -- The other node stands in a sibling before this one.
    have within := inside_of_between flattened (.deeper named .here) (Fin.le_of_lt inner) (Fin.le_of_lt before)
    rcases within.down preorder with rfl | ⟨s, member, inside⟩
    · exact absurd inner (Fin.lt_irrefl _)
    · have less : s < i := Fin.lt_of_le_of_lt (inside.le preorder) before
      have earlier := preorder.mem_takeWhile_of_lt listed member less
      exact absurd level (leads.other_line faithful flattened named earlier inside)

end Places

/-- The anchor of a node stands where the first token of its line does, on no later line than
the node, and it is the node itself or comes before it in the order of the walk. -/
theorem anchor_foremost {root : Outline} (faithful : root.Faithful) (hidden : List Token) :
    ∃ tree, root.toTree hidden = .ok tree ∧ tree.entered = List.finRange tree.size ∧
      ∀ i : tree.Id, ∃ anchor, tree.anchor i = .ok anchor ∧
        (∃ first, (tree.node first).kind = .terminal ∧ tree.placeOf first = tree.placeOf anchor) ∧
        Foremost tree anchor ∧ (tree.node anchor).line ≤ (tree.node i).line ∧ anchor ≤ i := by
  obtain ⟨tree, flattened⟩ := exists_toTree root hidden
  have preorder := preorder_toTree flattened
  refine ⟨tree, flattened, preorder.entered, ?_⟩
  intro i
  have before := preorder.anchorOf_le i
  exact ⟨tree.anchorOf i, preorder.anchor_eq i, exists_start faithful flattened _,
    (preorder.leads_anchorOf i).foremost faithful flattened, line_le faithful flattened before, before⟩


def ladderTree : Tree :=
  ((Outline.row .sourceUnit Outline.ladder [Outline.ending]).toTree []).toOption.get (by decide +kernel)

/-- The last block of the chain is led, over two closing braces, by the statement that the
chain begins with. -/
theorem anchor_foremost_ladder :
    (Outline.row .sourceUnit Outline.ladder [Outline.ending]).Faithful ∧
      (Outline.row .sourceUnit Outline.ladder [Outline.ending]).toTree [] = .ok ladderTree ∧
      ∃ i anchor : ladderTree.Id, i.val = 25 ∧ ladderTree.placeOf i = (5, 7) ∧ anchor.val = 1 ∧
        ladderTree.placeOf anchor = (1, 0) ∧ ladderTree.anchor i = .ok anchor ∧ Foremost ladderTree anchor := by
  have faithful : (Outline.row .sourceUnit Outline.ladder [Outline.ending]).Faithful := by decide
  have flattened : (Outline.row .sourceUnit Outline.ladder [Outline.ending]).toTree [] = .ok ladderTree := by
    obtain ⟨tree, found⟩ := exists_toTree (Outline.row .sourceUnit Outline.ladder [Outline.ending]) []
    simp [ladderTree, found, Except.toOption]
  let i : ladderTree.Id := ⟨25, by decide +kernel⟩
  have ends : ladderTree.anchor i = .ok ⟨1, by decide +kernel⟩ := by decide +kernel
  obtain ⟨tree, found, _, anchors⟩ := anchor_foremost faithful []
  obtain rfl := Except.ok.inj (flattened.symm.trans found)
  obtain ⟨anchor, led, _, foremost, _⟩ := anchors i
  obtain rfl := Except.ok.inj (ends.symm.trans led)
  exact ⟨faithful, flattened, i, _, rfl, by decide +kernel, rfl, by decide +kernel, led, foremost⟩

end Indentation.Tree
