import Indentation.Proofs.Searching

/-! What a listener hears of a walk. The recursion enters a node, goes through its children
in the order in which they are listed and leaves the node; nothing bounds how deep it goes.
Whatever else waits on the stack, the loop makes the visits of this recursion before it turns
to the rest. So the recursion ends where the loop does, and the calls are those of its visits
for which the listener has a hook. Where no node is listed twice, every way down to a node is
gone once. -/

namespace Indentation.Tree

variable {tree : Tree}

/-- The recursion, over nodes one after the other: enter the first, go through its children,
leave it, and go on with the rest. -/
inductive Traverses (tree : Tree) : List tree.Id → List tree.Visit → Prop where
  | nil : Traverses tree [] []
  | cons {i : tree.Id} {rest : List tree.Id} {inner later : List tree.Visit}
      (below : Traverses tree (tree.node i).children inner) (after : Traverses tree rest later) :
      Traverses tree (i :: rest) (⟨.enter, i⟩ :: (inner ++ ⟨.exit, i⟩ :: later))

/-- The loop makes the visits of the recursion first, whatever waits below them. -/
theorem Traverses.works {ids : List tree.Id} {visits later : List tree.Visit} {waiting : List (tree.Id × Bool)}
    (traverses : Traverses tree ids visits) (works : Works tree waiting later) :
    Works tree (ids.map (·, false) ++ waiting) (visits ++ later) := by
  induction traverses generalizing waiting later with
  | nil => exact works
  | cons _ _ deeper further =>
    rw [List.cons_append, List.append_assoc]
    exact .enter (deeper (.leave (further works)))

private theorem traverses_visits {levels depth : Nat} {ids : List tree.Id}
    (reached : ∀ i ∈ ids, Reached tree depth i) (enough : tree.size ≤ depth + levels) :
    Traverses tree ids (ids.flatMap (tree.visits levels)) := by
  induction levels generalizing depth ids with
  | zero =>
    cases ids with
    | nil => exact .nil
    | cons i rest =>
      have inside := (reached i List.mem_cons_self).depth_lt
      omega
  | succ levels ih =>
    induction ids with
    | nil => exact .nil
    | cons i rest further =>
      have below := ih (fun c listed => .child (reached i List.mem_cons_self) listed) (by omega)
      have after := further fun j member => reached j (List.mem_cons_of_mem _ member)
      rw [List.flatMap_cons, visits, List.cons_append, List.append_assoc]
      exact .cons below after

theorem traverses_walk (tree : Tree) : Traverses tree [tree.root] tree.walk := by
  have start : ∀ i ∈ [tree.root], Reached tree 0 i := by
    intro i member
    rw [List.mem_singleton.1 member]
    exact .root
  have traverses := traverses_visits start (Nat.le_add_left tree.size 0)
  rwa [List.flatMap_singleton, ← walk_eq_visits] at traverses

theorem traverses_iff {visits : List tree.Visit} : Traverses tree [tree.root] visits ↔ visits = tree.walk := by
  constructor
  · intro traverses
    have works := traverses.works .done
    simp only [List.append_nil] at works
    exact works.unique (works_walk tree)
  · rintro rfl
    exact traverses_walk tree

theorem works_iff {visits : List tree.Visit} : Works tree [(tree.root, false)] visits ↔ visits = tree.walk := by
  constructor
  · intro works
    exact works.unique (works_walk tree)
  · rintro rfl
    exact works_walk tree

/-- The call by which a listener hears of a visit, if it has the hook for it. -/
def heard (has : String → Bool) (visit : tree.Visit) : Option (String × tree.Id) :=
  let name := (match visit.phase with | .enter => "enter_" | .exit => "exit_") ++ (tree.node visit.node).kind.name
  if has name then some (name, visit.node) else none

theorem calls_eq (tree : Tree) (has : String → Bool) : tree.calls has = tree.walk.filterMap (heard has) := by
  unfold calls
  congr 1
  funext ⟨phase, i⟩
  cases phase with
  | enter => rfl
  | exit => rfl

section Once

private theorem Traverses.part {ids : List tree.Id} {visits : List tree.Visit} {c : tree.Id}
    (traverses : Traverses tree ids visits) (listed : c ∈ ids) :
    (∀ phase, ⟨phase, c⟩ ∈ visits) ∧ ∃ inner, Traverses tree (tree.node c).children inner ∧ inner ⊆ visits := by
  induction traverses with
  | nil => cases listed
  | @cons i rest inner later below _ _ ih =>
    rcases List.mem_cons.1 listed with rfl | further
    · refine ⟨?_, inner, below, fun visit member => List.mem_cons_of_mem _ (List.mem_append_left _ member)⟩
      intro phase
      cases phase with
      | enter => exact List.mem_cons_self
      | exit => exact List.mem_cons_of_mem _ (List.mem_append_right _ List.mem_cons_self)
    · obtain ⟨here, part, deeper, inside⟩ := ih further
      have kept : later ⊆ ⟨.enter, i⟩ :: (inner ++ ⟨.exit, i⟩ :: later) := fun visit member =>
        List.mem_cons_of_mem _ (List.mem_append_right _ (List.mem_cons_of_mem _ member))
      exact ⟨fun phase => kept (here phase), part, deeper, fun visit member => kept (inside member)⟩

private theorem Reached.exists_traversed {depth : Nat} {i : tree.Id} (reached : Reached tree depth i) :
    ∃ ids visits, i ∈ ids ∧ Traverses tree ids visits ∧ visits ⊆ tree.walk := by
  induction reached with
  | root => exact ⟨_, _, List.mem_singleton_self _, traverses_walk tree, List.Subset.refl _⟩
  | child _ listed ih =>
    obtain ⟨ids, visits, member, traverses, inside⟩ := ih
    obtain ⟨_, inner, below, within⟩ := traverses.part member
    exact ⟨_, inner, listed, below, fun visit here => inside (within here)⟩

theorem Reached.mem_walk {depth : Nat} {i : tree.Id} (reached : Reached tree depth i) (phase : Phase) :
    ⟨phase, i⟩ ∈ tree.walk := by
  obtain ⟨_, _, member, traverses, inside⟩ := reached.exists_traversed
  exact inside ((traverses.part member).1 phase)

/-- What is visited below a node lies on a way through it. -/
private theorem Way.of_mem_visits {levels : Nat} {places : List Nat} {i : tree.Id} (way : Way tree places i)
    {visit : tree.Visit} (member : visit ∈ tree.visits levels i) : ∃ rest, Way tree (places ++ rest) visit.node := by
  induction levels generalizing places i with
  | zero =>
    have same : visit.node = i := by
      rcases List.mem_cons.1 member with rfl | last
      · rfl
      · rw [List.mem_singleton.1 last]
    exact ⟨[], by rwa [List.append_nil, same]⟩
  | succ levels ih =>
    rw [visits] at member
    rcases List.mem_cons.1 member with rfl | member
    · exact ⟨[], by rwa [List.append_nil]⟩
    rcases List.mem_append.1 member with below | last
    · obtain ⟨c, listed, inside⟩ := List.mem_flatMap.1 below
      obtain ⟨rest, found⟩ := ih (.child way listed) inside
      exact ⟨_, List.append_assoc places _ rest ▸ found⟩
    · rw [List.mem_singleton.1 last]
      exact ⟨[], by rwa [List.append_nil]⟩

variable (distinct : ∀ p : tree.Id, (tree.node p).children.Nodup)
include distinct

private theorem Way.nodup_visits {levels : Nat} {places : List Nat} {i : tree.Id} (way : Way tree places i) :
    (tree.visits levels i).Nodup := by
  induction levels generalizing places i with
  | zero => simp [visits]
  | succ levels ih =>
    -- The node is not met below itself, and nothing below one child is met below another: in both
    -- cases one node would have two ways down to it.
    have outside : ∀ phase, ⟨phase, i⟩ ∉ (tree.node i).children.flatMap (tree.visits levels) := by
      intro phase member
      obtain ⟨c, listed, inside⟩ := List.mem_flatMap.1 member
      obtain ⟨rest, again⟩ := (Way.child way listed).of_mem_visits inside
      have lengths := congrArg List.length (way.unique again)
      simp at lengths
    have apart : (tree.node i).children.Pairwise fun c d =>
        List.Disjoint (tree.visits levels c) (tree.visits levels d) := by
      refine (distinct i).imp_of_mem ?_
      intro c d first second other visit left right
      obtain ⟨rest, down⟩ := (Way.child way first).of_mem_visits left
      obtain ⟨rest', again⟩ := (Way.child way second).of_mem_visits right
      have same := down.unique again
      simp only [List.append_assoc, List.append_cancel_left_eq, List.cons_append, List.nil_append,
        List.cons.injEq] at same
      exact other (List.idxOf_inj first |>.1 same.1)
    have inner : ((tree.node i).children.flatMap (tree.visits levels)).Nodup :=
      List.nodup_flatMap.2 ⟨fun c listed => ih (.child way listed), apart⟩
    rw [visits, List.nodup_cons, List.nodup_append']
    refine ⟨?_, inner, List.nodup_singleton _, ?_⟩
    · intro member
      rcases List.mem_append.1 member with below | last
      · exact outside .enter below
      · cases List.mem_singleton.1 last
    · intro visit below last
      rw [List.mem_singleton.1 last] at below
      exact outside .exit below

theorem nodup_walk : tree.walk.Nodup := by
  rw [walk_eq_visits]
  exact Way.root.nodup_visits distinct

end Once

/-- In every tree the loop ends, and it makes the visits of the recursion and no others; a
listener is called for those of them for which it has the `enter_` or `exit_` hook of the
node's kind. The nodes that are visited are those that are reached. If no node is listed
twice, each is entered once and left once; and the nodes of a flattened outline are entered
in the order of their numbers. -/
theorem walk_heard (tree : Tree) (has : String → Bool) :
    (∀ visits, Works tree [(tree.root, false)] visits ↔ visits = tree.walk) ∧
    (∀ visits, Traverses tree [tree.root] visits ↔ visits = tree.walk) ∧
    (∀ visits, Traverses tree [tree.root] visits → tree.calls has = visits.filterMap (heard has)) ∧
    (∀ phase i, ⟨phase, i⟩ ∈ tree.walk ↔ ∃ depth, Reached tree depth i) ∧
    ((∀ p : tree.Id, (tree.node p).children.Nodup) →
      ∀ phase depth i, Reached tree depth i → tree.walk.count ⟨phase, i⟩ = 1) ∧
    ∀ (outline : Outline) (hidden : List Token), outline.toTree hidden = .ok tree →
      tree.walk.filterMap Visit.entered? = List.finRange tree.size := by
  refine ⟨fun visits => works_iff, fun visits => traverses_iff, ?_, ?_, ?_, ?_⟩
  · intro visits traverses
    rw [traverses_iff.1 traverses]
    exact calls_eq tree has
  · intro phase i
    constructor
    · intro member
      exact reached_of_mem_walk member
    · rintro ⟨depth, reached⟩
      exact reached.mem_walk phase
  · intro distinct phase depth i reached
    exact List.count_eq_one_of_mem (nodup_walk distinct) (reached.mem_walk phase)
  · intro outline hidden flattened
    exact (preorder_toTree flattened).entered

/-- A listener that wants to know of blocks, of entering what has no kind of its own, and of the
end of the walk. The node that is listed twice is entered twice. -/
theorem walk_heard_scattered :
    ∃ visits, Traverses scatteredTree [scatteredTree.root] visits ∧
      visits.map (fun visit => (visit.phase, visit.node.val)) =
        [(.enter, 0), (.enter, 1), (.exit, 1), (.enter, 2), (.exit, 2), (.enter, 1), (.exit, 1), (.enter, 3), (.enter, 4),
          (.exit, 4), (.exit, 3), (.exit, 0)] ∧
      (scatteredTree.calls fun name => name ∈ ["enter_block", "exit_block", "enter_other", "exit_source_unit"]).map
          (fun call => (call.1, call.2.val)) =
        [("enter_other", 1), ("enter_other", 2), ("enter_other", 1), ("enter_block", 3), ("exit_block", 3),
          ("exit_source_unit", 0)] := by
  obtain ⟨_, recursion, calls, _⟩ := walk_heard scatteredTree fun name =>
    name ∈ ["enter_block", "exit_block", "enter_other", "exit_source_unit"]
  have traverses := (recursion scatteredTree.walk).2 rfl
  refine ⟨_, traverses, by decide +kernel, ?_⟩
  rw [calls _ traverses]
  decide +kernel

end Indentation.Tree
