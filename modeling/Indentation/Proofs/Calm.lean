import Indentation.Proofs.Evenness
import Indentation.Proofs.Leading
import Indentation.Proofs.Silence

/-! Parts of a tree in which nothing is out of place. Nothing can be at single tokens and
plain nodes. At a braced node the members have to stand one step in from the anchor and the
end under it, and at a controlling statement the loose bodies one step in from its parent. -/

namespace Indentation

namespace Tree

variable {tree : Tree}

theorem split_shown {ids : List tree.Id} {first second : List Outline}
    (shown : List.Forall₂ (Shows tree) ids (first ++ second)) :
    ∃ before after, ids = before ++ after ∧ List.Forall₂ (Shows tree) before first ∧
      List.Forall₂ (Shows tree) after second :=
  ⟨_, _, (List.take_append_drop first.length ids).symm, List.forall₂_take_append ids first second shown,
    List.forall₂_drop_append ids first second shown⟩

theorem shows_last {ids : List tree.Id} {os : List Outline} {o : Outline} {last : tree.Id}
    (shown : List.Forall₂ (Shows tree) ids (os ++ [o])) (final : ids.getLast? = some last) : Shows tree last o := by
  obtain ⟨before, after, rfl, _, rest⟩ := split_shown shown
  obtain ⟨item, tail, shows, ending, rfl⟩ := List.forall₂_cons_right_iff.1 rest
  cases ending
  rw [List.getLast?_concat] at final
  rwa [← Option.some.inj final]

end Tree

namespace Check.Checker

variable {checker : Checker} {tree : Tree} {i : tree.Id}

/-- Nothing is found at a node. -/
structure QuietAt (checker : Checker) (tree : Tree) (i : tree.Id) : Prop where
  kind : (tree.node i).kind ≠ .sourceUnit
  members : ∀ c ∈ checker.checked tree i, (tree.node c).column = checker.plainBase tree i
  ends : (tree.node i).kind.hasBraces → ∀ last, tree.ending? i = some last →
    (tree.node last).column = (tree.node (tree.anchorOf i)).column

/-- Nothing is found at a node or below it. -/
def Calm (checker : Checker) (tree : Tree) (i : tree.Id) : Prop := ∀ j, Tree.Inside tree i j → checker.QuietAt tree j

theorem calm_of_children (preorder : Tree.Preorder tree) (here : checker.QuietAt tree i)
    (below : ∀ c ∈ (tree.node i).children, checker.Calm tree c) : checker.Calm tree i := by
  intro j inside
  rcases inside.down preorder with rfl | ⟨c, listed, deeper⟩
  · exact here
  · exact below c listed j deeper

theorem quietAt_of_plain (plain : (tree.node i).kind = .other ∨ (tree.node i).kind = .statement ∨
    (tree.node i).kind = .terminal) : checker.QuietAt tree i := by
  obtain ⟨kind, bare, free⟩ : (tree.node i).kind ≠ .sourceUnit ∧ ¬ (tree.node i).kind.hasBraces ∧
      ¬ (tree.node i).kind.controls := by
    rcases plain with kind | kind | kind <;> simp [kind, Kind.hasBraces, Kind.controls]
  refine ⟨kind, ?_, fun braced => absurd braced bare⟩
  intro c member
  exact absurd (checker.controls_of_checked (checksBodies_iff.2 ⟨kind, bare⟩) member) free

theorem calm_of_flat (preorder : Tree.Preorder tree) {line : Int} {o : Outline} (derived : o.Derived)
    (flat : o.Flat line) (shows : Tree.Shows tree i o) : checker.Calm tree i := by
  induction derived generalizing i with
  | @token label kind =>
    refine calm_of_children preorder (quietAt_of_plain (.inr (.inr (shows.fits.kind.trans kind)))) ?_
    intro c listed
    obtain ⟨_, member, _⟩ := shows.exists_child listed
    cases member
  | @composite label first rest kind _ _ _ _ ih =>
    have other : label.kind = .other := by
      rcases (flat label (by rw [Outline.labels]; exact List.mem_cons_self)).1 with other | single
      · exact other
      · exact absurd single kind
    refine calm_of_children preorder (quietAt_of_plain (.inl (shows.fits.kind.trans other))) ?_
    intro c listed
    obtain ⟨child, member, shown⟩ := shows.exists_child listed
    refine ih child member (fun label inside => flat label ?_) shown
    rw [Outline.labels]
    exact List.mem_cons_of_mem _ (Outline.mem_labelsAll.2 ⟨child, member, inside⟩)

theorem quietAt_of_braces {column : Int} (braced : (tree.node i).kind.hasBraces)
    (anchor : (tree.node (tree.anchorOf i)).column = column)
    (members : ∀ c ∈ (tree.node i).children, (tree.node c).isTerminal = false →
      (tree.node c).column = column + checker.options.step)
    (ends : ∀ last, (tree.node i).children.getLast? = some last → (tree.node last).column = column) :
    checker.QuietAt tree i := by
  have kind := Kind.ne_sourceUnit_of_hasBraces braced
  refine ⟨kind, ?_, ?_⟩
  · intro c member
    rw [checked_nested braced] at member
    obtain ⟨_, composite, _, listed, _⟩ := Tree.mem_nested.1 member
    rw [plainBase_braces braced, anchor]
    exact members c (List.mem_of_getElem? listed) (by simp [Node.isTerminal, composite])
  · intro _ last ending
    rw [anchor, ends last (Tree.getLast?_of_ending? ending)]

/-- Loose bodies are measured from the parent of the statement. -/
theorem quietAt_of_bodies (controls : (tree.node i).kind.controls)
    (bodies : ∀ position ∈ checker.slots tree i, ∀ c, child? tree i position = some c → isLoose tree i c →
      ∃ p, (tree.node i).parent = some p ∧ (tree.node c).column = (tree.node p).column + checker.options.step) :
    checker.QuietAt tree i := by
  have kind := Kind.ne_sourceUnit_of_controls controls
  have bare := Kind.bare_of_controls controls
  refine ⟨kind, ?_, fun braced => absurd braced bare⟩
  intro c member
  rw [checked_bodies (checksBodies_iff.2 ⟨kind, bare⟩)] at member
  obtain ⟨slot, loose⟩ := List.mem_filter.1 member
  obtain ⟨position, inside, found⟩ := List.mem_filterMap.1 slot
  obtain ⟨p, named, column⟩ := bodies position inside c found loose
  rw [plainBase_bodies (checksBodies_iff.2 ⟨kind, bare⟩) named, column]

end Check.Checker
end Indentation
