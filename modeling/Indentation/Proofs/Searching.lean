import Mathlib.Data.List.Lex
import Mathlib.Data.List.TakeWhile
import Indentation.Proofs.Leading

/-! The search for an anchor in any tree, whatever its nodes say of their lines. A round
that changes the line leads to a sibling listed before an ancestor, so on the way down from
the root it turns off earlier. Ways are compared place by place, and no node is met twice;
so there are never more rounds than nodes, and the last one ends at a node that leads its
line. -/

namespace Indentation.Tree

variable {tree : Tree}

/-- The rounds from a node to its anchor, as many as it takes. -/
inductive Rounds (tree : Tree) : Nat → tree.Id → tree.Id → Prop where
  | last {i left : tree.Id} (found : tree.leftmost i = .ok left)
      (level : (tree.node left).line = (tree.node i).line) : Rounds tree 1 i left
  | hop {count : Nat} {i left anchor : tree.Id} (found : tree.leftmost i = .ok left)
      (other : (tree.node left).line ≠ (tree.node i).line) (rest : Rounds tree count left anchor) :
      Rounds tree (count + 1) i anchor

/-- The way down to a node, by the places at which the nodes on it are first listed. -/
inductive Way (tree : Tree) : List Nat → tree.Id → Prop where
  | root : Way tree [] tree.root
  | child {places : List Nat} {p c : tree.Id} (above : Way tree places p)
      (listed : c ∈ (tree.node p).children) : Way tree (places ++ [(tree.node p).children.idxOf c]) c

theorem Reached.exists_way {depth : Nat} {i : tree.Id} (reached : Reached tree depth i) :
    ∃ places, Way tree places i := by
  induction reached with
  | root => exact ⟨[], .root⟩
  | child _ listed ih =>
    obtain ⟨places, above⟩ := ih
    exact ⟨_, .child above listed⟩

namespace Way

variable {places : List Nat} {i : tree.Id} (way : Way tree places i)
include way

theorem reached : ∃ depth, Reached tree depth i := by
  induction way with
  | root => exact ⟨0, .root⟩
  | child _ listed ih =>
    obtain ⟨depth, above⟩ := ih
    exact ⟨depth + 1, .child above listed⟩

theorem up {p : tree.Id} (named : (tree.node i).parent = some p) :
    ∃ above, Way tree above p ∧ places = above ++ [(tree.node p).children.idxOf i] := by
  cases way with
  | root => cases parent_root.symm.trans named
  | @child above q _ way listed =>
    obtain rfl : q = p := Option.some.inj ((tree.linked listed).symm.trans named)
    exact ⟨above, way, rfl⟩

theorem unique {others : List Nat} (again : Way tree others i) : places = others := by
  induction way generalizing others with
  | root =>
    cases again with
    | root => rfl
    | child _ listed => exact absurd rfl (ne_root_of_listed listed)
  | child _ listed ih =>
    obtain ⟨above, way, rfl⟩ := again.up (tree.linked listed)
    rw [ih way]

theorem climb {top : tree.Id} (climbs : Climbs tree i top) :
    ∃ above rest, Way tree above top ∧ places = above ++ rest := by
  induction climbs generalizing places with
  | here => exact ⟨places, [], way, (List.append_nil places).symm⟩
  | up step _ ih =>
    obtain ⟨middle, parent, rfl⟩ := way.up (lineParent?_eq_some.1 step).1
    obtain ⟨above, rest, top, rfl⟩ := ih parent
    exact ⟨above, _, top, List.append_assoc _ _ _⟩

end Way

section Lists

variable {β : Type} [DecidableEq β] {row : List β} {a b : β}

private theorem idxOf_lt_of_mem_takeWhile (member : a ∈ row.takeWhile (· ≠ b)) : row.idxOf a < row.idxOf b := by
  induction row with
  | nil => cases member
  | cons first rest ih =>
    by_cases same : first = b
    · simp [same] at member
    · rw [List.takeWhile_cons_of_pos (by simpa using same)] at member
      rw [List.idxOf_cons_ne rest same]
      rcases List.mem_cons.1 member with rfl | later
      · rw [List.idxOf_cons_self]
        exact Nat.succ_pos _
      · by_cases here : first = a
        · rw [here, List.idxOf_cons_self]
          exact Nat.succ_pos _
        · rw [List.idxOf_cons_ne rest here]
          exact Nat.succ_lt_succ (ih later)

/-- Before the first hit of a scan there is none. -/
private theorem find?_before_first {p : β → Bool} (found : (row.takeWhile (· ≠ b)).find? p = some a) :
    (row.takeWhile (· ≠ a)).find? p = none := by
  obtain ⟨holds, before, after, split, fails⟩ := List.find?_eq_some_iff_append.1 found
  have others : ∀ x ∈ before, decide (x ≠ a) = true := by
    intro x member
    apply decide_eq_true
    rintro rfl
    simpa [holds] using fails x member
  have first : row.takeWhile (· ≠ a) = before := by
    rw [← List.takeWhile_append_dropWhile (p := (· ≠ b)) (l := row), split, List.append_assoc,
      List.takeWhile_append_of_pos others, List.cons_append, List.takeWhile_cons_of_neg (by simp), List.append_nil]
  rw [first, List.find?_eq_none]
  intro x member
  simpa using fails x member

end Lists

/-- A round that changes the line turns off earlier. -/
theorem Way.hop {places : List Nat} {i left : tree.Id} (way : Way tree places i) (found : tree.leftmost i = .ok left)
    (other : (tree.node left).line ≠ (tree.node i).line) : ∃ earlier, Way tree earlier left ∧ earlier < places := by
  obtain ⟨top, climbs, _, looked⟩ := leftmost_cases found
  obtain ⟨upper, rest, here, rfl⟩ := way.climb climbs
  rcases lineStart_cases looked with rfl | ⟨p, named, before, _⟩
  · exact absurd climbs.line other
  · obtain ⟨above, parent, rfl⟩ := here.up named
    have listed := (List.takeWhile_sublist _).subset before
    refine ⟨_, .child parent listed, ?_⟩
    rw [List.append_assoc]
    apply List.append_left_lt
    exact List.Lex.rel (idxOf_lt_of_mem_takeWhile before)

section Counting

variable {places : List Nat} {i : tree.Id} {met : List tree.Id} (way : Way tree places i) (distinct : met.Nodup)
  (later : ∀ j ∈ met, ∃ further, Way tree further j ∧ places < further)
include way distinct later

theorem Way.nodup_met : (i :: met).Nodup := by
  refine List.nodup_cons.2 ⟨?_, distinct⟩
  intro member
  obtain ⟨further, again, less⟩ := later i member
  rw [way.unique again] at less
  exact lt_irrefl _ less

/-- There is a round left for every node that has not been met. -/
theorem Way.exists_rounds {fuel : Nat} (enough : fuel + met.length = tree.size) :
    ∃ count anchor, count ≤ fuel ∧ Rounds tree count i anchor ∧ tree.anchorWithin fuel i = .ok anchor := by
  induction fuel generalizing places i met with
  | zero =>
    have fits := (way.nodup_met distinct later).length_le_card
    rw [Fintype.card_fin, List.length_cons] at fits
    omega
  | succ fuel ih =>
    obtain ⟨_, reached⟩ := way.reached
    obtain ⟨left, _, found, _⟩ := reached.leftmost
    by_cases level : (tree.node left).line = (tree.node i).line
    · exact ⟨1, left, by omega, .last found level, by simp [anchorWithin, found, level]⟩
    · obtain ⟨earlier, beside, less⟩ := way.hop found level
      have further : ∀ j ∈ i :: met, ∃ further, Way tree further j ∧ earlier < further := by
        intro j member
        rcases List.mem_cons.1 member with rfl | old
        · exact ⟨places, way, less⟩
        · obtain ⟨further, again, more⟩ := later j old
          exact ⟨further, again, lt_trans less more⟩
      obtain ⟨count, anchor, within, rounds, ends⟩ :=
        ih beside (way.nodup_met distinct later) further (by rw [List.length_cons]; omega)
      exact ⟨count + 1, anchor, by omega, .hop found level rounds, by simp [anchorWithin, found, level, ends]⟩

end Counting

/-- The leftmost node leads its line, if it starts where the climb has ended. -/
theorem leads_of_lineStart {top left : tree.Id} (stops : tree.lineParent? top = none)
    (looked : tree.lineStart top = .ok left) (level : (tree.node left).line = (tree.node top).line) :
    Leads tree left := by
  rcases find?_of_lineStart looked with rfl | ⟨p, named, found⟩
  · exact ⟨stops, looked⟩
  have listed := (List.takeWhile_sublist _).subset (List.mem_of_find?_eq_some found)
  have beside := tree.linked listed
  constructor
  · rw [Option.eq_none_iff_forall_ne_some] at stops ⊢
    intro q step
    obtain ⟨above, same, kind⟩ := lineParent?_eq_some.1 step
    obtain rfl : p = q := Option.some.inj (beside.symm.trans above)
    exact stops p (lineParent?_eq_some.2 ⟨named, level.symm.trans same, kind⟩)
  · have missing : (((tree.node p).children.takeWhile (· ≠ left)).find?
        fun s => (tree.node s).stopLine = (tree.node left).line) = none := by
      rw [level]
      exact find?_before_first found
    rw [lineStart, beside]
    simp only [listed, ↓reduceIte, missing]
    rfl

theorem Rounds.leads {count : Nat} {i anchor : tree.Id} (rounds : Rounds tree count i anchor) :
    Leads tree anchor := by
  induction rounds with
  | last found level =>
    obtain ⟨top, climbs, stops, looked⟩ := leftmost_cases found
    exact leads_of_lineStart stops looked (level.trans climbs.line.symm)
  | hop _ _ _ ih => exact ih

namespace Leads

variable {i : tree.Id} (leads : Leads tree i)
include leads

theorem anchor : tree.anchor i = .ok i := by
  have left : tree.leftmost i = .ok i := (leftmost_of_stop leads.stops).trans leads.first
  rw [Tree.anchor, ← Nat.succ_pred_eq_of_pos tree.nonempty, anchorWithin, left]
  exact if_pos rfl

variable {p : tree.Id} (named : (tree.node i).parent = some p)
include named

theorem apart : (tree.node p).kind = .sourceUnit ∨ (tree.node p).line ≠ (tree.node i).line := by
  by_contra both
  obtain ⟨kind, level⟩ := not_or.1 both
  have step : tree.lineParent? i = some p :=
    lineParent?_eq_some.2 ⟨named, (not_not.1 level).symm, kind⟩
  cases leads.stops.symm.trans step

theorem first_listed : i ∈ (tree.node p).children ∧
    ∀ s ∈ (tree.node p).children.takeWhile (· ≠ i), (tree.node s).stopLine ≠ (tree.node i).line := by
  have first := leads.first
  rw [lineStart, named] at first
  simp only at first
  split at first
  next listed =>
    refine ⟨listed, ?_⟩
    intro s earlier ends
    cases found : ((tree.node p).children.takeWhile (· ≠ i)).find?
        fun s => (tree.node s).stopLine = (tree.node i).line with
    | none => simpa [ends] using List.find?_eq_none.1 found s earlier
    | some sibling =>
      rw [found] at first
      obtain rfl : sibling = i := Except.ok.inj first
      simpa using List.mem_takeWhile_imp (List.mem_of_find?_eq_some found)
  next => cases first

end Leads

/-- From every node that is reached, the search for an anchor ends within as many rounds as
there are nodes, and each of its rounds finds the node it looks for. What it ends at has no
parent, or stands below a source unit or a parent of another line; no sibling listed before
it ends on its line; and it is its own anchor. -/
theorem anchor_leads_line {depth : Nat} {i : tree.Id} (reached : Reached tree depth i) :
    ∃ anchor count, Rounds tree count i anchor ∧ count ≤ tree.size ∧ tree.anchor i = .ok anchor ∧
      (∀ p, (tree.node anchor).parent = some p →
        ((tree.node p).kind = .sourceUnit ∨ (tree.node p).line ≠ (tree.node anchor).line) ∧
        anchor ∈ (tree.node p).children ∧
        ∀ s ∈ (tree.node p).children.takeWhile (· ≠ anchor), (tree.node s).stopLine ≠ (tree.node anchor).line) ∧
      tree.anchor anchor = .ok anchor := by
  obtain ⟨places, way⟩ := reached.exists_way
  obtain ⟨count, anchor, within, rounds, found⟩ := way.exists_rounds List.nodup_nil nofun (Nat.add_zero tree.size)
  have leads := rounds.leads
  exact ⟨anchor, count, rounds, within, found, fun p named => ⟨leads.apart named, leads.first_listed named⟩,
    leads.anchor⟩

/-- The second node lies on a later line than those after it but ends before them, and it is
listed twice. -/
def scattered : List Entry :=
  [ { index := 0, kind := .sourceUnit, children := [1, 2, 1, 3], line := 5, column := 0, stopLine := 1 },
    { index := 1, kind := .other, parent := some 0, line := 9, column := 3, stopLine := 4 },
    { index := 2, kind := .other, parent := some 0, line := 4, column := 8, stopLine := 7 },
    { index := 3, kind := .block, parent := some 0, children := [4], line := 7, column := 1, stopLine := 7 },
    { index := 4, kind := .terminal, parent := some 3, line := 7, column := 1, stopLine := 7 } ]

def scatteredTree : Tree :=
  (ofEntries scattered none).toOption.get (by decide +kernel)

theorem anchor_leads_line_scattered :
    ∃ i anchor : scatteredTree.Id, i.val = 4 ∧ Reached scatteredTree 2 i ∧ anchor.val = 1 ∧
      scatteredTree.anchor i = .ok anchor ∧ scatteredTree.anchor anchor = .ok anchor ∧
      ∃ count, count ≤ scatteredTree.size ∧ Rounds scatteredTree count i anchor := by
  let block : scatteredTree.Id := ⟨3, by decide +kernel⟩
  let i : scatteredTree.Id := ⟨4, by decide +kernel⟩
  have inside : Reached scatteredTree 1 block := .child .root (by decide +kernel)
  have reached : Reached scatteredTree 2 i := .child inside (by decide +kernel)
  have ends : scatteredTree.anchor i = .ok ⟨1, by decide +kernel⟩ := by decide +kernel
  obtain ⟨anchor, count, rounds, within, found, _, again⟩ := anchor_leads_line reached
  obtain rfl := Except.ok.inj (ends.symm.trans found)
  exact ⟨i, _, rfl, reached, rfl, found, again, count, within, rounds⟩

end Indentation.Tree
