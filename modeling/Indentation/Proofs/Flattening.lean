import Indentation.Proofs.Entries
import Indentation.Tree.Flatten
import Mathlib.Data.List.Forall2

/-! What a flattened outline looks like from its nodes. The tree shows the outline at its
root: every node carries the label of its part of the outline, and its listed children show
the parts below it, numbered one subtree after the other. -/

namespace Indentation

namespace Outline

/-- A node that carries a label. -/
structure Label.Fits {n : Nat} (label : Label) (node : Node n) : Prop where
  kind : node.kind = label.kind
  line : node.line = label.line
  column : node.column = label.column
  stopLine : node.stopLine = label.stopLine
  text : node.text = label.text.getD ""
  token : node.token = label.token?

theorem Label.Fits.isTerminal {n : Nat} {label : Label} {node : Node n} (fits : label.Fits node) :
    node.isTerminal = decide (node.kind = .terminal) := by
  rw [Node.isTerminal, fits.token, fits.kind, Label.token?]
  split <;> simp [*]

mutual

theorem length_entries (parent : Option Nat) (number : Nat) (o : Outline) :
    (entries parent number o).length = o.size := by
  cases o with
  | node label children =>
    rw [entries, List.length_cons, length_entriesAll number (number + 1) children, size, Nat.add_comm]

theorem length_entriesAll (parent number : Nat) (os : List Outline) :
    (entriesAll parent number os).length = sizeAll os := by
  cases os with
  | nil => rfl
  | cons o rest =>
    rw [entriesAll, List.length_append, length_entries (some parent) number o,
      length_entriesAll parent (number + o.size) rest, sizeAll]

end

/-- An outline somewhere in another one. -/
inductive Part (part : Outline) : Outline → Prop where
  | whole : Part part part
  | inner {label : Label} {children : List Outline} {o : Outline} (member : o ∈ children) (deeper : Part part o) :
      Part part (node label children)

theorem size_pos (o : Outline) : 0 < o.size := by
  cases o with
  | node label children => rw [size]; omega

mutual

/-- All labels, a node's before those below it. -/
def labels : Outline → List Label
  | node label children => label :: labelsAll children

def labelsAll : List Outline → List Label
  | [] => []
  | o :: rest => labels o ++ labelsAll rest

end

theorem mem_labelsAll {os : List Outline} {label : Label} : label ∈ labelsAll os ↔ ∃ o ∈ os, label ∈ o.labels := by
  induction os with
  | nil => simp [labelsAll]
  | cons o rest ih => simp [labelsAll, ih]

/-- An entry that carries a label. -/
def Label.Marks (label : Label) (entry : Entry) : Prop :=
  ∃ number parent children, entry = label.entry number parent children

mutual

theorem marks_entries (parent : Option Nat) (number : Nat) (o : Outline) :
    List.Forall₂ Label.Marks o.labels (entries parent number o) := by
  cases o with
  | node label children =>
    rw [labels, entries]
    exact .cons ⟨_, _, _, rfl⟩ (marks_entriesAll number (number + 1) children)

theorem marks_entriesAll (parent number : Nat) (os : List Outline) :
    List.Forall₂ Label.Marks (labelsAll os) (entriesAll parent number os) := by
  cases os with
  | nil => exact .nil
  | cons o rest =>
    rw [labelsAll, entriesAll]
    exact List.rel_append (marks_entries (some parent) number o)
      (marks_entriesAll parent (number + o.size) rest)

end

def tokens (o : Outline) : List Token := (entries none 0 o).filterMap (·.token)

theorem tokens_eq (o : Outline) : o.tokens = o.labels.filterMap Label.token? := by
  have marked : ∀ {labels : List Label} {row : List Entry}, List.Forall₂ Label.Marks labels row →
      row.filterMap (·.token) = labels.filterMap Label.token? := by
    intro labels row marks
    induction marks with
    | nil => rfl
    | cons first _ ih =>
      obtain ⟨number, parent, children, rfl⟩ := first
      rw [List.filterMap_cons, List.filterMap_cons, ih]
      rfl
  exact marked (marks_entries none 0 o)

end Outline

namespace Tree

mutual

/-- The tree shows an outline at a node. -/
inductive Shows (tree : Tree) : tree.Id → Outline → Prop where
  | node {i : tree.Id} {label : Outline.Label} {children : List Outline} (fits : label.Fits (tree.node i))
      (below : ShowsAll tree (i.val + 1) (tree.node i).children children) : Shows tree i (.node label children)

/-- Siblings that show outlines and are numbered one subtree after the other. -/
inductive ShowsAll (tree : Tree) : Nat → List tree.Id → List Outline → Prop where
  | nil {number : Nat} : ShowsAll tree number [] []
  | cons {number : Nat} {i : tree.Id} {rest : List tree.Id} {o : Outline} {others : List Outline}
      (here : i.val = number) (first : Shows tree i o) (later : ShowsAll tree (number + o.size) rest others) :
      ShowsAll tree number (i :: rest) (o :: others)

end

variable {tree : Tree} {row : List Entry} {tokens : Option (List Token)}

/-- The entries stand in the row from a number on. -/
private def StandsAt (row : List Entry) (number : Nat) (part : List Entry) : Prop :=
  ∀ k, k < part.length → row[number + k]? = part[k]?

private theorem StandsAt.append {number : Nat} {first second : List Entry}
    (stands : StandsAt row number (first ++ second)) :
    StandsAt row number first ∧ StandsAt row (number + first.length) second := by
  constructor
  · intro k inside
    rw [stands k (by rw [List.length_append]; omega), List.getElem?_append_left inside]
  · intro k inside
    rw [Nat.add_assoc, stands (first.length + k) (by rw [List.length_append]; omega),
      List.getElem?_append_right (by omega), Nat.add_sub_cancel_left]

private theorem StandsAt.head {number : Nat} {entry : Entry} {part : List Entry}
    (stands : StandsAt row number (entry :: part)) : row[number]? = some entry := by
  simpa using stands 0 (by simp)

private theorem StandsAt.tail {number : Nat} {entry : Entry} {part : List Entry}
    (stands : StandsAt row number (entry :: part)) : StandsAt row (number + 1) part := by
  have split : StandsAt row number ([entry] ++ part) := stands
  exact split.append.2

/-- Every start of a sibling is an entry that names the parent. -/
private theorem named_of_starts {parent number : Nat} (os : List Outline)
    (stands : StandsAt row number (Outline.entriesAll parent number os)) :
    ∀ c ∈ Outline.starts number os, namedParent? row.toArray c = some (parent : Int) := by
  induction os generalizing number with
  | nil => intro c member; cases member
  | cons o rest ih =>
    rw [Outline.entriesAll] at stands
    obtain ⟨first, later⟩ := stands.append
    rw [Outline.length_entries] at later
    intro c member
    rw [Outline.starts] at member
    rcases List.mem_cons.1 member with rfl | member
    · cases o with
      | node label children =>
        rw [Outline.entries] at first
        obtain ⟨inside, entry⟩ := List.getElem?_eq_some_iff.1 first.head
        have placed : place? row.toArray.size c = some ⟨c, by simpa using inside⟩ := place?_eq_some.2 rfl
        simp [namedParent?, placed, entry, Outline.Label.entry]
    · exact ih later c member

mutual

private theorem clean_of_stands (parent : Option Nat) (number : Nat) (o : Outline)
    (above : ∀ p ∈ parent, p < row.length) (stands : StandsAt row number (Outline.entries parent number o))
    (k : Fin row.toArray.size) (lower : number ≤ k.val) (upper : k.val < number + o.size) :
    entryFlaw? row.toArray k = none := by
  cases o with
  | node label children =>
    rw [Outline.entries] at stands
    obtain ⟨inside, entry⟩ := List.getElem?_eq_some_iff.1 stands.head
    by_cases first : k.val = number
    · subst first
      have parents : parentFlaw? row.toArray (label.entry k.val parent (Outline.starts (k.val + 1) children)) = none := by
        cases parent with
        | none => rfl
        | some p =>
          have placed : place? row.toArray.size p = some ⟨p, by simpa using above p rfl⟩ := place?_eq_some.2 rfl
          simp [parentFlaw?, Outline.Label.entry, placed]
      have listed : (label.entry k.val parent (Outline.starts (k.val + 1) children)).children.findSome?
          (childFlaw? row.toArray (label.entry k.val parent (Outline.starts (k.val + 1) children))) = none := by
        rw [List.findSome?_eq_none_iff]
        intro child member
        obtain ⟨c, start, rfl⟩ := List.mem_map.1 member
        have named := named_of_starts children stands.tail c start
        simp [childFlaw?, named, Outline.Label.entry]
      simp only [entryFlaw?, Fin.getElem_fin, List.getElem_toArray, entry, parents, listed]
      simp [Outline.Label.entry]
    · rw [Outline.size] at upper
      exact cleanAll_of_stands number (number + 1) children inside stands.tail k (by omega) (by omega)

private theorem cleanAll_of_stands (parent number : Nat) (os : List Outline) (above : parent < row.length)
    (stands : StandsAt row number (Outline.entriesAll parent number os))
    (k : Fin row.toArray.size) (lower : number ≤ k.val) (upper : k.val < number + Outline.sizeAll os) :
    entryFlaw? row.toArray k = none := by
  cases os with
  | nil =>
    rw [Outline.sizeAll] at upper
    omega
  | cons o rest =>
    rw [Outline.entriesAll] at stands
    rw [Outline.sizeAll] at upper
    obtain ⟨first, later⟩ := stands.append
    rw [Outline.length_entries] at later
    by_cases inside : k.val < number + o.size
    · refine clean_of_stands (some parent) number o ?_ first k lower inside
      rintro p member
      cases member
      exact above
    · exact cleanAll_of_stands parent (number + o.size) rest above later k (by omega) (by omega)

end

/-- Flattening never fails. -/
theorem exists_toTree (root : Outline) (hidden : List Token) : ∃ tree, root.toTree hidden = .ok tree := by
  apply exists_ofEntries
  have clean : ∀ k, entryFlaw? (Outline.entries none 0 root).toArray k = none := by
    intro k
    refine clean_of_stands none 0 root nofun ?_ k (Nat.zero_le _) ?_
    · intro j inside
      rw [Nat.zero_add]
    · have inside : k.val < (Outline.entries none 0 root).length := by simpa using k.isLt
      rwa [Outline.length_entries, ← Nat.zero_add root.size] at inside
  have later : (List.finRange _).findSome? (entryFlaw? (Outline.entries none 0 root).toArray) = none :=
    List.findSome?_eq_none_iff.2 fun k _ => clean k
  cases root with
  | node label children =>
    rw [Outline.entries] at later ⊢
    simp only [flaw?, List.size_toArray, List.length_cons, Nat.zero_lt_succ, ↓reduceDIte, List.getElem_toArray,
      List.getElem_cons_zero]
    rw [later]
    rfl

private theorem node_of_stands (holds : Holds tree row tokens) {number : Nat} {entry : Entry} {part : List Entry}
    (stands : StandsAt row number (entry :: part)) :
    ∃ i : tree.Id, i.val = number ∧ row[i.val]? = some entry ∧ tree.node i = nodeOf entry tree.size := by
  have inside : number < tree.size := by
    rw [holds.size]
    exact (List.getElem?_eq_some_iff.1 stands.head).1
  obtain ⟨other, same, node⟩ := holds.node ⟨number, inside⟩
  obtain rfl := Option.some.inj (same.symm.trans stands.head)
  exact ⟨⟨number, inside⟩, rfl, same, node⟩

private theorem val_children (holds : Holds tree row tokens) {i : tree.Id} {label : Outline.Label} {number : Nat}
    {parent : Option Nat} {starts : List Nat}
    (found : row[i.val]? = some (label.entry number parent starts)) :
    (tree.node i).children.map Fin.val = starts := by
  have same := holds.children i found
  have cast : ((tree.node i).children.map Fin.val).map Int.ofNat = starts.map Int.ofNat := by
    rw [List.map_map]
    exact same
  exact (List.map_inj_right fun _ _ => Int.ofNat.inj).1 cast

mutual

private theorem shows_of_stands (holds : Holds tree row tokens) (parent : Option Nat) (number : Nat) (o : Outline)
    (stands : StandsAt row number (Outline.entries parent number o)) :
    ∃ i : tree.Id, i.val = number ∧ Shows tree i o := by
  cases o with
  | node label children =>
    rw [Outline.entries] at stands
    obtain ⟨i, rfl, found, node⟩ := node_of_stands holds stands
    refine ⟨i, rfl, .node ?_ ?_⟩
    · rw [node]
      exact ⟨rfl, rfl, rfl, rfl, rfl, rfl⟩
    · exact showsAll_of_stands holds i.val (i.val + 1) children stands.tail _ (val_children holds found)

private theorem showsAll_of_stands (holds : Holds tree row tokens) (parent number : Nat) (os : List Outline)
    (stands : StandsAt row number (Outline.entriesAll parent number os)) (ids : List tree.Id)
    (numbered : ids.map Fin.val = Outline.starts number os) : ShowsAll tree number ids os := by
  cases os with
  | nil =>
    rw [Outline.starts, List.map_eq_nil_iff] at numbered
    rw [numbered]
    exact .nil
  | cons o rest =>
    rw [Outline.entriesAll] at stands
    obtain ⟨first, later⟩ := stands.append
    rw [Outline.length_entries] at later
    obtain ⟨i, here, shows⟩ := shows_of_stands holds (some parent) number o first
    rw [Outline.starts] at numbered
    obtain ⟨j, js, rfl, same, others⟩ := List.map_eq_cons_iff.1 numbered
    obtain rfl : i = j := Fin.ext (here.trans same.symm)
    exact .cons here shows (showsAll_of_stands holds parent (number + o.size) rest later js others)

end

theorem shows_toTree {root : Outline} {hidden : List Token} {tree : Tree}
    (flattened : root.toTree hidden = .ok tree) : Shows tree tree.root root := by
  have holds := holds_of_accepted flattened
  obtain ⟨i, first, shows⟩ := shows_of_stands holds none 0 root (by
    intro k inside
    rw [Nat.zero_add])
  obtain rfl : i = tree.root := Fin.ext first
  exact shows

theorem size_toTree {root : Outline} {hidden : List Token} {tree : Tree}
    (flattened : root.toTree hidden = .ok tree) : tree.size = root.size :=
  (holds_of_accepted flattened).size.trans (Outline.length_entries none 0 root)

theorem tokens_toTree {root : Outline} {hidden : List Token} {tree : Tree}
    (flattened : root.toTree hidden = .ok tree) : tree.tokens.Perm (root.tokens ++ hidden) := by
  rw [(holds_of_accepted flattened).tokens]
  exact List.mergeSort_perm _ _

theorem fits_toTree {root : Outline} {hidden : List Token} {tree : Tree} (flattened : root.toTree hidden = .ok tree)
    (i : tree.Id) : ∃ label, root.labels[i.val]? = some label ∧ label.Fits (tree.node i) := by
  obtain ⟨entry, found, node⟩ := (holds_of_accepted flattened).node i
  obtain ⟨inside, at_i⟩ := List.getElem?_eq_some_iff.1 found
  have marks := Outline.marks_entries none 0 root
  have length := marks.length_eq
  have marked := marks.get (by omega) inside
  simp only [List.get_eq_getElem, at_i] at marked
  obtain ⟨number, parent, children, rfl⟩ := marked
  refine ⟨_, List.getElem?_eq_getElem (by omega), ?_⟩
  rw [node]
  exact ⟨rfl, rfl, rfl, rfl, rfl, rfl⟩

end Tree
end Indentation
