import Indentation.Proofs.Ascent
import Indentation.Proofs.Entries
import Indentation.Proofs.Leading

/-! Where the search for an anchor has no end. The rounds of the search are counted, the
steps of a climb within a round are not: a climb ends only where a node has no parent on its
line that it may go on to. Nodes below the root always lead there. Nodes that name each other
as parents in a circle, all on one line, do not, and a round that begins on such a circle or
below it is the last thing the search does. It ends, with a node or with one that its parent
does not list, just if no round begins there. -/

namespace Indentation.Tree

variable {tree : Tree} {i j p top : tree.Id}

/-- The node at which a climb ends. -/
structure Tops (tree : Tree) (i top : tree.Id) : Prop where
  climbs : Climbs tree i top
  stops : tree.lineParent? top = none

/-- A node to which a climb from it comes back. -/
def OnCircle (tree : Tree) (i : tree.Id) : Prop :=
  ∃ p, tree.lineParent? i = some p ∧ Climbs tree p i

theorem Climbs.trans {k : tree.Id} (first : Climbs tree i j) (second : Climbs tree j k) : Climbs tree i k := by
  induction first with
  | here => exact second
  | up step _ ih => exact .up step (ih second)

theorem OnCircle.up (circle : OnCircle tree i) (step : tree.lineParent? i = some p) : OnCircle tree p := by
  obtain ⟨q, onward, back⟩ := circle
  cases step.symm.trans onward
  cases back with
  | here => exact ⟨_, step, .here⟩
  | up next rest => exact ⟨_, next, rest.trans (.up step .here)⟩

theorem OnCircle.climb (circle : OnCircle tree i) (climbs : Climbs tree i j) : OnCircle tree j := by
  induction climbs with
  | here => exact circle
  | up step _ ih => exact ih (circle.up step)

/-- A climb that ends passes every node that any climb from there passes. -/
theorem Tops.onward (tops : Tops tree i top) (climbs : Climbs tree i j) : Tops tree j top := by
  induction climbs with
  | here => exact tops
  | up step _ ih =>
    apply ih
    refine ⟨?_, tops.stops⟩
    cases tops.climbs with
    | here => cases tops.stops.symm.trans step
    | up again rest =>
      cases step.symm.trans again
      exact rest

theorem Tops.not_onCircle (tops : Tops tree i top) (climbs : Climbs tree i j) : ¬ OnCircle tree j := by
  intro circle
  obtain ⟨_, step, _⟩ := circle.climb (tops.onward climbs).climbs
  cases tops.stops.symm.trans step

theorem climbs_of_risen {count : Nat} (up : risen tree.lineParent? count i = some j) : Climbs tree i j := by
  induction count generalizing i with
  | zero =>
    obtain rfl : i = j := Option.some.inj up
    exact .here
  | succ count ih =>
    obtain ⟨p, step, rest⟩ := Option.bind_eq_some_iff.1 up
    exact .up step (ih rest)

private theorem risen_of_outermostWithin {fuel : Nat} (endless : tree.outermostWithin fuel i = none) :
    ∃ j, risen tree.lineParent? fuel i = some j := by
  induction fuel generalizing i with
  | zero => exact ⟨i, rfl⟩
  | succ fuel ih =>
    unfold outermostWithin at endless
    split at endless
    next => cases endless
    next p step =>
      obtain ⟨j, up⟩ := ih endless
      exact ⟨j, by rw [risen, step, Option.bind_some, up]⟩

/-- A climb past as many nodes as there are has come to a circle. -/
theorem exists_onCircle (endless : tree.outermost? i = none) : ∃ j, Climbs tree i j ∧ OnCircle tree j := by
  obtain ⟨_, up⟩ := risen_of_outermostWithin endless
  obtain ⟨earlier, later, met, less, _, before, after⟩ := exists_met_twice (Nat.le_refl _) up
  obtain ⟨rest, rfl⟩ := Nat.exists_eq_add_of_lt less
  rw [Nat.add_assoc, risen_add, before, Option.bind_some] at after
  obtain ⟨p, step, back⟩ := Option.bind_eq_some_iff.1 after
  exact ⟨met, climbs_of_risen before, p, step, climbs_of_risen back⟩

theorem exists_tops_iff : (∃ top, Tops tree i top) ↔ ∀ j, Climbs tree i j → ¬ OnCircle tree j := by
  constructor
  · rintro ⟨top, tops⟩ j climbs
    exact tops.not_onCircle climbs
  · intro free
    cases climbed : tree.outermost? i with
    | none =>
      obtain ⟨j, climbs, circle⟩ := exists_onCircle climbed
      exact absurd circle (free j climbs)
    | some top =>
      obtain ⟨climbs, stops⟩ := climbs_of_outermostWithin climbed
      exact ⟨top, climbs, stops⟩

theorem Tops.leftmost (tops : Tops tree i top) : tree.leftmost i = tree.lineStart top := by
  rw [Tree.leftmost]
  cases climbed : tree.outermost? i with
  | none =>
    obtain ⟨j, climbs, circle⟩ := exists_onCircle climbed
    exact absurd circle (tops.not_onCircle climbs)
  | some other =>
    obtain ⟨climbs, stops⟩ := climbs_of_outermostWithin climbed
    rw [tops.climbs.unique climbs tops.stops stops]

theorem leftmost_of_endless (endless : ¬ ∃ top, Tops tree i top) : tree.leftmost i = .error .circular := by
  rw [Tree.leftmost]
  cases climbed : tree.outermost? i with
  | none => rfl
  | some top =>
    obtain ⟨climbs, stops⟩ := climbs_of_outermostWithin climbed
    exact absurd ⟨top, climbs, stops⟩ endless

theorem unlisted_of_lineStart {lost : Lost} (looked : tree.lineStart i = .error lost) :
    lost = .unlisted i.val ∧ ∃ p, (tree.node i).parent = some p ∧ i ∉ (tree.node p).children := by
  unfold lineStart at looked
  split at looked
  next => cases looked
  next p named =>
    dsimp only at looked
    split at looked
    next => cases looked
    next missing =>
      cases looked
      exact ⟨rfl, p, named, missing⟩

/-- The search as a loop: so many rounds at most, each with a climb as long as it takes. -/
inductive Searches (tree : Tree) : Nat → tree.Id → Except Lost tree.Id → Prop where
  | spent {i : tree.Id} : Searches tree 0 i (.ok i)
  | lost {rounds : Nat} {i top : tree.Id} {lost : Lost} (tops : Tops tree i top)
      (looked : tree.lineStart top = .error lost) : Searches tree (rounds + 1) i (.error lost)
  | found {rounds : Nat} {i top left : tree.Id} (tops : Tops tree i top) (looked : tree.lineStart top = .ok left)
      (level : (tree.node left).line = (tree.node i).line) : Searches tree (rounds + 1) i (.ok left)
  | hop {rounds : Nat} {i top left : tree.Id} {result : Except Lost tree.Id} (tops : Tops tree i top)
      (looked : tree.lineStart top = .ok left) (other : (tree.node left).line ≠ (tree.node i).line)
      (later : Searches tree rounds left result) : Searches tree (rounds + 1) i result

/-- The nodes at which rounds begin, by the number of rounds before. -/
inductive Hops (tree : Tree) : Nat → tree.Id → tree.Id → Prop where
  | here {i : tree.Id} : Hops tree 0 i i
  | hop {count : Nat} {i top left j : tree.Id} (tops : Tops tree i top) (looked : tree.lineStart top = .ok left)
      (other : (tree.node left).line ≠ (tree.node i).line) (later : Hops tree count left j) :
      Hops tree (count + 1) i j

theorem searches_iff {rounds : Nat} {result : Except Lost tree.Id} :
    Searches tree rounds i result ↔ tree.anchorWithin rounds i = result ∧ result ≠ .error .circular := by
  constructor
  · intro searches
    induction searches with
    | spent => exact ⟨rfl, nofun⟩
    | lost tops looked =>
      obtain ⟨rfl, _⟩ := unlisted_of_lineStart looked
      exact ⟨by simp only [anchorWithin, tops.leftmost, looked], nofun⟩
    | found tops looked level => exact ⟨by simp only [anchorWithin, tops.leftmost, looked, level, ↓reduceIte], nofun⟩
    | hop tops looked other _ ih =>
      obtain ⟨ends, ordinary⟩ := ih
      exact ⟨by simp only [anchorWithin, tops.leftmost, looked, other, ↓reduceIte, ends], ordinary⟩
  · rintro ⟨rfl, ordinary⟩
    induction rounds generalizing i with
    | zero => exact .spent
    | succ rounds ih =>
      rw [anchorWithin] at ordinary ⊢
      by_cases ends : ∃ top, Tops tree i top
      · obtain ⟨top, tops⟩ := ends
        rw [tops.leftmost] at ordinary ⊢
        cases looked : tree.lineStart top with
        | error lost => exact .lost tops looked
        | ok left =>
          rw [looked] at ordinary
          dsimp only at ordinary ⊢
          split at ordinary
          next level =>
            rw [if_pos level]
            exact .found tops looked level
          next other =>
            rw [if_neg other]
            exact .hop tops looked other (ih ordinary)
      · rw [leftmost_of_endless ends] at ordinary
        exact absurd rfl ordinary

theorem exists_searches_iff {rounds : Nat} :
    (∃ result, Searches tree rounds i result) ↔
      ∀ count j, count < rounds → Hops tree count i j → ∃ top, Tops tree j top := by
  induction rounds generalizing i with
  | zero => exact ⟨fun _ _ _ less => absurd less (Nat.not_lt_zero _), fun _ => ⟨_, .spent⟩⟩
  | succ rounds ih =>
    constructor
    · rintro ⟨result, searches⟩ count j less hops
      cases hops with
      | here =>
        cases searches with
        | lost tops _ => exact ⟨_, tops⟩
        | found tops _ _ => exact ⟨_, tops⟩
        | hop tops _ _ _ => exact ⟨_, tops⟩
      | hop tops looked other later =>
        -- Both have made the same round, so it has led both to the same node.
        have round := tops.leftmost.trans looked
        cases searches with
        | lost again stuck => cases round.symm.trans (again.leftmost.trans stuck)
        | found again ended level =>
          cases round.symm.trans (again.leftmost.trans ended)
          exact absurd level other
        | hop again ended _ rest =>
          cases round.symm.trans (again.leftmost.trans ended)
          exact ih.1 ⟨result, rest⟩ _ j (Nat.lt_of_succ_lt_succ less) later
    · intro ends
      obtain ⟨top, tops⟩ := ends 0 i (Nat.succ_pos _) .here
      cases looked : tree.lineStart top with
      | error lost => exact ⟨_, .lost tops looked⟩
      | ok left =>
        by_cases level : (tree.node left).line = (tree.node i).line
        · exact ⟨_, .found tops looked level⟩
        · have further : ∀ count j, count < rounds → Hops tree count left j → ∃ top, Tops tree j top :=
            fun count j less hops => ends (count + 1) j (Nat.succ_lt_succ less) (.hop tops looked level hops)
          obtain ⟨result, later⟩ := ih.2 further
          exact ⟨result, .hop tops looked level later⟩

theorem Searches.unlisted {rounds : Nat} {lost : Lost} (searches : Searches tree rounds i (.error lost)) :
    ∃ k p : tree.Id, lost = .unlisted k.val ∧ (tree.node k).parent = some p ∧ k ∉ (tree.node p).children := by
  induction rounds generalizing i with
  | zero => cases searches
  | succ rounds ih =>
    cases searches with
    | lost tops looked =>
      obtain ⟨rfl, p, named, missing⟩ := unlisted_of_lineStart looked
      exact ⟨_, p, rfl, named, missing⟩
    | hop _ _ _ later => exact ih later

/-- The search from a node ends just if none of its rounds begins at a node from which a climb
comes to a circle on one line. When it ends it gives the anchor, or it has come to a node that
its parent does not list. -/
theorem anchor_ends_iff (tree : Tree) (i : tree.Id) :
    ((∃ result, Searches tree tree.size i result) ↔
      ∀ count j, count < tree.size → Hops tree count i j → ∀ k, Climbs tree j k → ¬ OnCircle tree k) ∧
    (∀ result, Searches tree tree.size i result ↔ tree.anchor i = result ∧ result ≠ .error .circular) ∧
    ∀ lost, Searches tree tree.size i (.error lost) →
      ∃ k p : tree.Id, lost = .unlisted k.val ∧ (tree.node k).parent = some p ∧ k ∉ (tree.node p).children := by
  refine ⟨?_, fun result => searches_iff, fun lost searches => searches.unlisted⟩
  rw [exists_searches_iff]
  constructor
  · intro ends count j less hops
    exact exists_tops_iff.1 (ends count j less hops)
  · intro free count j less hops
    exact exists_tops_iff.2 (free count j less hops)

/-- A node that names itself as its parent and is listed by nobody. -/
def knotted : List Entry :=
  [ { index := 0, kind := .sourceUnit, line := 1, column := 0, stopLine := 1 },
    { index := 1, kind := .other, parent := some 1, line := 2, column := 0, stopLine := 2 } ]

def knottedTree : Tree :=
  (ofEntries knotted none).toOption.get (by decide +kernel)

theorem anchor_endless_knotted :
    ofEntries knotted none = .ok knottedTree ∧
      ∃ i : knottedTree.Id, i.val = 1 ∧ ¬ ∃ result, Searches knottedTree knottedTree.size i result := by
  obtain ⟨tree, accepted⟩ : ∃ tree, ofEntries knotted none = .ok tree := exists_ofEntries (by decide)
  have same : knottedTree = tree := by simp [knottedTree, accepted, Except.toOption]
  refine ⟨same ▸ accepted, ⟨1, by decide +kernel⟩, rfl, ?_⟩
  intro ends
  obtain ⟨top, tops⟩ := exists_searches_iff.1 ends 0 _ knottedTree.nonempty .here
  have circle : OnCircle knottedTree ⟨1, by decide +kernel⟩ := ⟨_, by decide +kernel, .here⟩
  exact tops.not_onCircle .here circle

end Indentation.Tree
