import Indentation.Tree.Entry

/-! What an accepted row of entries becomes. Nothing is lost on the way: the tree has a
node for every entry, in order, and every parent and child that an entry names is a place in
the row. -/

namespace Indentation.Tree

variable {entries : List Entry} {tokens : Option (List Token)} {tree : Tree}

theorem exists_ofEntries (flawless : flaw? entries.toArray = none) :
    ∃ tree, ofEntries entries tokens = .ok tree := by
  unfold ofEntries
  dsimp only
  split
  next flaw found => cases flawless.symm.trans found
  next => exact ⟨_, rfl⟩

/-- The tree of a row. -/
structure Holds (tree : Tree) (entries : List Entry) (tokens : Option (List Token)) : Prop where
  flawless : flaw? entries.toArray = none
  size : tree.size = entries.length
  node : ∀ i : tree.Id, ∃ entry, entries[i.val]? = some entry ∧ tree.node i = nodeOf entry tree.size
  tokens : tree.tokens = (tokens.getD (entries.filterMap (·.token))).mergeSort Token.before

theorem holds_of_accepted (accepted : ofEntries entries tokens = .ok tree) : Holds tree entries tokens := by
  unfold ofEntries at accepted
  dsimp only at accepted
  split at accepted
  next => cases accepted
  next flawless =>
    cases accepted
    refine ⟨flawless, List.size_toArray, ?_, rfl⟩
    intro i
    have inside : i.val < entries.length := by simpa using i.isLt
    exact ⟨entries[i.val], List.getElem?_eq_getElem inside, by simp⟩

theorem Holds.kind (holds : Holds tree entries tokens) (i : tree.Id) {entry : Entry}
    (found : entries[i.val]? = some entry) : (tree.node i).kind = entry.kind := by
  obtain ⟨_, same, node⟩ := holds.node i
  obtain rfl := Option.some.inj (found.symm.trans same)
  rw [node]
  rfl

private theorem map_filterMap_place {n : Nat} {numbers : List Int}
    (inside : ∀ number ∈ numbers, (place? n number).isSome) :
    (numbers.filterMap (place? n)).map (fun c => (c.val : Int)) = numbers := by
  induction numbers with
  | nil => rfl
  | cons number rest ih =>
    obtain ⟨c, placed⟩ := Option.isSome_iff_exists.1 (inside number List.mem_cons_self)
    have same : number = c.val := place?_eq_some.1 placed
    rw [List.filterMap_cons_some placed, List.map_cons, ih fun n member => inside n (List.mem_cons_of_mem _ member),
      ← same]

private theorem entry_clean (holds : Holds tree entries tokens) (i : tree.Id) {entry : Entry}
    (found : entries[i.val]? = some entry) :
    parentFlaw? entries.toArray entry = none ∧
      entry.children.findSome? (childFlaw? entries.toArray entry) = none := by
  obtain ⟨inside, rfl⟩ := List.getElem?_eq_some_iff.1 found
  have clean := flawless_entry holds.flawless ⟨i.val, by simpa using inside⟩
  unfold entryFlaw? at clean
  simp only [Fin.getElem_fin, List.getElem_toArray] at clean
  split at clean
  · cases clean
  · exact Option.or_eq_none_iff.1 clean

/-- Every child that an entry lists is a place in the row. -/
theorem Holds.children (holds : Holds tree entries tokens) (i : tree.Id) {entry : Entry}
    (found : entries[i.val]? = some entry) :
    (tree.node i).children.map (fun c => (c.val : Int)) = entry.children := by
  obtain ⟨_, same, node⟩ := holds.node i
  obtain rfl := Option.some.inj (found.symm.trans same)
  rw [node]
  apply map_filterMap_place
  intro number member
  have named := List.findSome?_eq_none_iff.1 (entry_clean holds i found).2 number member
  rw [holds.size, ← List.size_toArray]
  cases placed : place? entries.toArray.size number with
  | some c => rfl
  | none => simp [childFlaw?, namedParent?, placed] at named

/-- The parent that an entry names is a place in the row. -/
theorem Holds.parent (holds : Holds tree entries tokens) (i : tree.Id) {entry : Entry}
    (found : entries[i.val]? = some entry) :
    (tree.node i).parent.map (fun p => (p.val : Int)) = entry.parent := by
  obtain ⟨_, same, node⟩ := holds.node i
  obtain rfl := Option.some.inj (found.symm.trans same)
  have clean := (entry_clean holds i found).1
  rw [node]
  cases named : entry.parent with
  | none => simp [nodeOf, named]
  | some parent =>
    have inside : (place? tree.size parent).isSome := by
      rw [holds.size, ← List.size_toArray]
      cases placed : place? entries.toArray.size parent with
      | some p => rfl
      | none => simp [parentFlaw?, named, placed] at clean
    obtain ⟨p, placed⟩ := Option.isSome_iff_exists.1 inside
    have same : parent = p.val := place?_eq_some.1 placed
    simp only [nodeOf, named, Option.bind_some, placed, Option.map_some, ← same]

theorem only_root_of_entries (accepted : ofEntries entries tokens = .ok tree)
    (only : ∀ entry ∈ entries.tail, entry.kind ≠ .sourceUnit) (i : tree.Id) (other : i ≠ tree.root) :
    (tree.node i).kind ≠ .sourceUnit := by
  have holds := holds_of_accepted accepted
  obtain ⟨entry, found, _⟩ := holds.node i
  have later : i.val ≠ 0 := fun first => other (Fin.ext first)
  rw [holds.kind i found]
  apply only
  rw [← Nat.succ_pred_eq_of_ne_zero later] at found
  exact List.mem_of_getElem? (by rw [List.getElem?_tail]; exact found)

end Indentation.Tree
