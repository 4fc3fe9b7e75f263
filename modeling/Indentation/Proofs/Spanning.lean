import Indentation.Outline.Basic
import Mathlib.Data.List.Basic

/-! Where the nodes of a tree stand once they are filled in. A node starts where it says, and
otherwise where the first node below it on the left says; it ends where it says, and otherwise
where the first node below it on the right says, or on the line of the leaf there. Line and column
are found apart from each other. A tree can be filled in exactly if its leaves say where they are,
and then no node is left without a place. -/

namespace Indentation.Outline

theorem bind_eq_ok_iff {ε α β : Type} {result : Except ε α} {next : α → Except ε β} {b : β} :
    result >>= next = .ok b ↔ ∃ a, result = .ok a ∧ next a = .ok b := by
  cases result with
  | error fault =>
    refine ⟨nofun, ?_⟩
    rintro ⟨a, impossible, -⟩
    cases impossible
  | ok a =>
    refine ⟨fun done => ⟨a, rfl, done⟩, ?_⟩
    rintro ⟨_, same, done⟩
    cases same
    exact done

/-- A tree of nodes in which any field may be missing. -/
inductive Sketch where
  | node (draft : Draft) (children : List Sketch)

namespace Sketch

def draft : Sketch → Draft
  | node draft _ => draft

def children : Sketch → List Sketch
  | node _ children => children

@[simp]
theorem draft_node (draft : Draft) (children : List Sketch) : (node draft children).draft = draft := rfl

@[simp]
theorem children_node (draft : Draft) (children : List Sketch) : (node draft children).children = children := rfl

/-! ## What is said along the edges of a tree -/

mutual

/-- The nodes on the way down the first children. -/
def leftmost : Sketch → List Draft
  | node draft children => draft :: leftmostOf children

def leftmostOf : List Sketch → List Draft
  | [] => []
  | first :: _ => leftmost first

end

mutual

/-- The nodes on the way down the last children. -/
def rightmost : Sketch → List Draft
  | node draft children => draft :: rightmostOf children

def rightmostOf : List Sketch → List Draft
  | [] => []
  | [last] => rightmost last
  | _ :: next :: rest => rightmostOf (next :: rest)

end

mutual

/-- The childless nodes, from left to right. -/
def leaves : Sketch → List Draft
  | node draft [] => [draft]
  | node _ (first :: rest) => leaves first ++ leavesAll rest

def leavesAll : List Sketch → List Draft
  | [] => []
  | s :: rest => leaves s ++ leavesAll rest

end

/-- What the first node on the left edge says that says anything. -/
def first (s : Sketch) (field : Draft → Option Int) : Option Int := s.leftmost.findSome? field

/-- What the first node on the right edge says of where it ends; else the line of the leaf that the
edge ends in. -/
def stopLine (s : Sketch) : Option Int :=
  (s.rightmost.findSome? (·.stopLine)).or (s.rightmost.getLast?.bind (·.line))

theorem rightmostOf_of_getLast? {children : List Sketch} {last : Sketch} (ends : children.getLast? = some last) :
    rightmostOf children = last.rightmost := by
  induction children with
  | nil => cases ends
  | cons s rest ih =>
    cases rest with
    | nil =>
      obtain rfl : s = last := by simpa using ends
      rw [rightmostOf]
    | cons next rest =>
      rw [rightmostOf]
      exact ih ends

theorem rightmost_ne_nil (s : Sketch) : s.rightmost ≠ [] := by
  cases s with
  | node draft children =>
    rw [rightmost]
    exact List.cons_ne_nil _ _

theorem first_node (draft : Draft) (children : List Sketch) (field : Draft → Option Int) :
    (node draft children).first field = (field draft).or (children.head?.bind (·.first field)) := by
  rw [first, leftmost, List.findSome?_cons]
  cases children with
  | nil => cases field draft <;> rfl
  | cons s rest => cases field draft <;> rfl

theorem stopLine_leaf (draft : Draft) : (node draft []).stopLine = draft.stopLine.or draft.line := by
  rw [stopLine, rightmost, rightmostOf, List.findSome?_singleton]
  rfl

theorem stopLine_node (draft : Draft) {children : List Sketch} {last : Sketch} (ends : children.getLast? = some last) :
    (node draft children).stopLine = draft.stopLine.or last.stopLine := by
  obtain ⟨next, rest, edge⟩ := List.exists_cons_of_ne_nil last.rightmost_ne_nil
  rw [stopLine, stopLine, rightmost, rightmostOf_of_getLast? ends, edge, List.findSome?_cons, List.getLast?_cons_cons]
  cases draft.stopLine with
  | none => rfl
  | some line => rfl

theorem leaves_node (draft : Draft) {children : List Sketch} (nonempty : children ≠ []) :
    (node draft children).leaves = leavesAll children := by
  cases children with
  | nil => exact absurd rfl nonempty
  | cons s rest => rw [leaves, leavesAll]

end Sketch

/-! ## Filling in -/

/-- What a node leaves out is taken from its children; a leaf ends on the line that it starts on. -/
def Draft.filled (draft : Draft) (children : List Draft) : Draft :=
  match children with
  | [] => { draft with stopLine := draft.stopLine.or draft.line }
  | first :: _ =>
    { draft with
      line := draft.line.or first.line
      column := draft.column.or first.column
      stopLine := draft.stopLine.or (children.getLast?.bind (·.stopLine))
      text := draft.text.or (some (String.join (children.map (·.text.getD "")))) }

/-- A node must start somewhere. Nothing is asked of where it ends. -/
def Draft.checked (draft : Draft) : Except Unplaced Draft :=
  if draft.line.isSome && draft.column.isSome then .ok draft else .error ⟨draft.kind⟩

namespace Sketch

mutual

/-- Fills in a tree from the leaves up. -/
def fill : Sketch → Except Unplaced Sketch
  | node draft children => do
    let below ← fillAll children
    return node (← (draft.filled (below.map (·.draft))).checked) below

def fillAll : List Sketch → Except Unplaced (List Sketch)
  | [] => return []
  | s :: rest => return (← fill s) :: (← fillAll rest)

end

theorem fill_node {draft : Draft} {children : List Sketch} {t : Sketch} (done : (node draft children).fill = .ok t) :
    ∃ below, fillAll children = .ok below ∧ t = node (draft.filled (below.map (·.draft))) below ∧
      t.draft.line.isSome ∧ t.draft.column.isSome := by
  rw [fill, bind_eq_ok_iff] at done
  obtain ⟨below, made, done⟩ := done
  obtain ⟨full, checked, done⟩ := bind_eq_ok_iff.1 done
  rw [Draft.checked] at checked
  split at checked
  next starts =>
    cases checked
    cases done
    exact ⟨below, made, rfl, Bool.and_eq_true_iff.1 starts⟩
  next => cases checked

theorem fillAll_cons {s : Sketch} {rest filled : List Sketch} (done : fillAll (s :: rest) = .ok filled) :
    ∃ t others, s.fill = .ok t ∧ fillAll rest = .ok others ∧ filled = t :: others := by
  rw [fillAll, bind_eq_ok_iff] at done
  obtain ⟨t, one, done⟩ := done
  obtain ⟨others, all, done⟩ := bind_eq_ok_iff.1 done
  cases done
  exact ⟨t, others, one, all, rfl⟩

/-! ## What is filled in -/

/-- A node as it stands over its children. -/
structure Stands (s t : Sketch) : Prop where
  kind : t.draft.kind = s.draft.kind
  channel : t.draft.channel = s.draft.channel
  type : t.draft.type = s.draft.type
  line : t.draft.line = s.first (·.line)
  column : t.draft.column = s.first (·.column)
  stopLine : t.draft.stopLine = s.stopLine
  text : t.draft.text = s.draft.text.or
    (if s.children = [] then none else some (String.join (t.children.map (·.draft.text.getD ""))))
  somewhere : t.draft.line.isSome ∧ t.draft.column.isSome ∧ t.draft.stopLine.isSome

mutual

/-- A tree and what it is filled in to, node by node. -/
inductive Spans : Sketch → Sketch → Prop where
  | node {draft full : Draft} {children below : List Sketch} (own : Stands (node draft children) (node full below))
      (all : SpansAll children below) : Spans (node draft children) (node full below)

inductive SpansAll : List Sketch → List Sketch → Prop where
  | nil : SpansAll [] []
  | cons {s t : Sketch} {rest others : List Sketch} (one : Spans s t) (all : SpansAll rest others) :
      SpansAll (s :: rest) (t :: others)

end

theorem Spans.stands {s t : Sketch} (spans : Spans s t) : Stands s t := by
  cases spans with
  | node own all => exact own

theorem SpansAll.last {children below : List Sketch} (all : SpansAll children below) {last : Sketch}
    (ends : children.getLast? = some last) : ∃ t, below.getLast? = some t ∧ Stands last t := by
  induction children generalizing below with
  | nil => cases ends
  | cons s rest ih =>
    cases all with
    | @cons _ t _ others one all =>
      cases rest with
      | nil =>
        obtain rfl : s = last := by simpa using ends
        cases all
        exact ⟨t, rfl, one.stands⟩
      | cons next rest =>
        obtain ⟨u, found, stands⟩ := ih all ends
        refine ⟨u, ?_, stands⟩
        cases all with
        | cons => exact found

theorem stands_leaf {draft : Draft} (line : (draft.filled []).line.isSome) (column : (draft.filled []).column.isSome) :
    Stands (node draft []) (node (draft.filled []) []) := by
  refine ⟨rfl, rfl, rfl, ?_, ?_, ?_, ?_, line, column, ?_⟩
  · rw [first_node, List.head?_nil]
    exact Option.or_none.symm
  · rw [first_node, List.head?_nil]
    exact Option.or_none.symm
  · rw [stopLine_leaf]
    rfl
  · exact Option.or_none.symm
  · change (draft.stopLine.or draft.line).isSome
    rw [Option.isSome_or, Bool.or_eq_true]
    exact .inr line

theorem stands_over {draft : Draft} {s t : Sketch} {rest others : List Sketch} (one : Spans s t)
    (all : SpansAll rest others) (line : (draft.filled ((t :: others).map (·.draft))).line.isSome)
    (column : (draft.filled ((t :: others).map (·.draft))).column.isSome) :
    Stands (node draft (s :: rest)) (node (draft.filled ((t :: others).map (·.draft))) (t :: others)) := by
  obtain ⟨u, stops, right⟩ := (SpansAll.cons one all).last (List.getLast?_eq_some_getLast (List.cons_ne_nil s rest))
  have stopped : (draft.filled ((t :: others).map (·.draft))).stopLine = draft.stopLine.or u.draft.stopLine := by
    rw [List.map_cons, Draft.filled, ← List.map_cons, List.getLast?_map, stops]
    rfl
  refine ⟨rfl, rfl, rfl, ?_, ?_, ?_, ?_, line, column, ?_⟩
  · rw [first_node, List.head?_cons, Option.bind_some, ← one.stands.line]
    rfl
  · rw [first_node, List.head?_cons, Option.bind_some, ← one.stands.column]
    rfl
  · rw [stopLine_node draft (List.getLast?_eq_some_getLast (List.cons_ne_nil s rest)), ← right.stopLine]
    exact stopped
  · rw [children_node, if_neg (List.cons_ne_nil s rest)]
    simp [Draft.filled, Function.comp_def]
  · rw [draft_node, stopped, Option.isSome_or, Bool.or_eq_true]
    exact .inr right.somewhere.2.2

mutual

theorem spans_fill (s : Sketch) {t : Sketch} (done : s.fill = .ok t) : Spans s t := by
  cases s with
  | node draft children =>
    obtain ⟨below, made, rfl, line, column⟩ := fill_node done
    have all := spansAll_fillAll children made
    refine .node ?_ all
    cases all with
    | nil => exact stands_leaf line column
    | cons one others => exact stands_over one others line column

theorem spansAll_fillAll (children : List Sketch) {below : List Sketch} (done : fillAll children = .ok below) :
    SpansAll children below := by
  cases children with
  | nil =>
    cases done
    exact .nil
  | cons s rest =>
    obtain ⟨t, others, one, all, rfl⟩ := fillAll_cons done
    exact .cons (spans_fill s one) (spansAll_fillAll rest all)

end

/-! ## When a tree can be filled in -/

/-- A leaf has no one to ask where it starts. -/
def Complete (draft : Draft) : Prop := draft.line.isSome ∧ draft.column.isSome

theorem fill_eq {draft : Draft} {children below : List Sketch} (made : fillAll children = .ok below)
    (starts : Complete (draft.filled (below.map (·.draft)))) :
    (node draft children).fill = .ok (node (draft.filled (below.map (·.draft))) below) := by
  rw [fill, made]
  simp only [Draft.checked, bind, Except.bind, pure, Except.pure, starts.1, starts.2, Bool.and_self, ↓reduceIte]

mutual

theorem exists_fill_of_leaves (s : Sketch) (complete : ∀ draft ∈ s.leaves, Complete draft) : ∃ t, s.fill = .ok t := by
  cases s with
  | node draft children =>
    cases children with
    | nil =>
      have own : Complete draft := complete draft (by simp [leaves])
      exact ⟨_, fill_eq rfl own⟩
    | cons s rest =>
      rw [leaves_node draft (List.cons_ne_nil s rest)] at complete
      obtain ⟨below, made⟩ := exists_fillAll_of_leaves (s :: rest) complete
      refine ⟨_, fill_eq made ?_⟩
      cases spansAll_fillAll (s :: rest) made with
      | cons one all =>
        -- the first child has been filled in before
        obtain ⟨line, column, -⟩ := one.stands.somewhere
        constructor
        · change (draft.line.or _).isSome
          rw [Option.isSome_or, Bool.or_eq_true]
          exact .inr line
        · change (draft.column.or _).isSome
          rw [Option.isSome_or, Bool.or_eq_true]
          exact .inr column

theorem exists_fillAll_of_leaves (children : List Sketch) (complete : ∀ draft ∈ leavesAll children, Complete draft) :
    ∃ below, fillAll children = .ok below := by
  cases children with
  | nil => exact ⟨[], rfl⟩
  | cons s rest =>
    rw [leavesAll, List.forall_mem_append] at complete
    obtain ⟨t, one⟩ := exists_fill_of_leaves s complete.1
    obtain ⟨others, all⟩ := exists_fillAll_of_leaves rest complete.2
    refine ⟨t :: others, ?_⟩
    rw [fillAll, one, all]
    rfl

end

mutual

theorem leaves_of_fill (s : Sketch) {t : Sketch} (done : s.fill = .ok t) : ∀ draft ∈ s.leaves, Complete draft := by
  cases s with
  | node draft children =>
    obtain ⟨below, made, rfl, line, column⟩ := fill_node done
    cases children with
    | nil =>
      cases made
      intro leaf member
      rw [leaves, List.mem_singleton] at member
      subst member
      exact ⟨line, column⟩
    | cons s rest =>
      rw [leaves_node draft (List.cons_ne_nil s rest)]
      exact leaves_of_fillAll (s :: rest) made

theorem leaves_of_fillAll (children : List Sketch) {below : List Sketch} (done : fillAll children = .ok below) :
    ∀ draft ∈ leavesAll children, Complete draft := by
  cases children with
  | nil =>
    intro leaf member
    cases member
  | cons s rest =>
    obtain ⟨t, others, one, all, rfl⟩ := fillAll_cons done
    rw [leavesAll, List.forall_mem_append]
    exact ⟨leaves_of_fill s one, leaves_of_fillAll rest all⟩

end

theorem exists_fill_iff (s : Sketch) : (∃ t, s.fill = .ok t) ↔ ∀ draft ∈ s.leaves, Complete draft :=
  ⟨fun ⟨_, done⟩ => leaves_of_fill s done, exists_fill_of_leaves s⟩

end Sketch

/-! ## Outlines are filled in throughout -/

/-- A label has all fields that a draft may have. -/
def Label.draft (label : Label) : Draft where
  kind := label.kind
  text := label.text
  line := some label.line
  column := some label.column
  stopLine := some label.stopLine
  channel := label.channel
  type := label.type

mutual

def sketch : Outline → Sketch
  | node label children => .node label.draft (sketchAll children)

def sketchAll : List Outline → List Sketch
  | [] => []
  | o :: rest => sketch o :: sketchAll rest

end

theorem drafts_sketchAll (children : List Outline) :
    (sketchAll children).map (·.draft) = children.map (·.label.draft) := by
  induction children with
  | nil => rfl
  | cons o rest ih =>
    cases o with
    | node label children =>
      rw [sketchAll, List.map_cons, List.map_cons, ih]
      rfl

theorem children_make {draft : Draft} {children : List Outline} {o : Outline} (made : make draft children = .ok o) :
    o.children = children := by
  unfold make at made
  dsimp only at made
  split at made
  next =>
    cases made
    rfl
  next => cases made

theorem make_cons (draft : Draft) (o : Outline) (rest : List Outline) :
    make draft (o :: rest) =
      .ok (placed draft (draft.line.getD o.label.line) (draft.column.getD o.label.column) (o :: rest)) := by
  unfold make
  cases draft.line <;> cases draft.column <;> rfl

theorem filled_cons (draft : Draft) (o : Outline) (rest : List Outline) :
    draft.filled ((o :: rest).map (·.label.draft)) =
      (placed draft (draft.line.getD o.label.line) (draft.column.getD o.label.column) (o :: rest)).label.draft := by
  have ends := List.getLast?_eq_some_getLast (List.cons_ne_nil o rest)
  have stops : ((o :: rest).map (·.label.draft)).getLast? = some ((o :: rest).getLast (List.cons_ne_nil o rest)).label.draft := by
    rw [List.getLast?_map, ends, Option.map_some]
  have texts : String.join (((o :: rest).map (·.label.draft)).map (·.text.getD "")) = joinedText (o :: rest) := by
    rw [List.map_map]
    rfl
  rw [List.map_cons] at stops texts
  rw [List.map_cons, Draft.filled, stops, texts, placed, ends]
  change Draft.mk _ _ _ _ _ _ _ = Draft.mk _ _ _ _ _ _ _
  congr 1
  · cases draft.text <;> rfl
  · cases draft.line <;> rfl
  · cases draft.column <;> rfl
  · cases draft.stopLine <;> rfl

/-- Over children that are filled in, placing a node and filling in its draft are the same. -/
theorem checked_filled (draft : Draft) (children : List Outline) :
    (draft.filled (children.map (·.label.draft))).checked = (make draft children).map (·.label.draft) := by
  cases children with
  | nil =>
    obtain ⟨kind, text, line, column, stopLine, channel, type⟩ := draft
    cases line with
    | none => cases column <;> rfl
    | some line =>
      cases column with
      | none => rfl
      | some column => cases stopLine <;> cases text <;> rfl
  | cons o rest =>
    rw [filled_cons, make_cons]
    rfl

namespace Sketch

mutual

/-- Places every node over its children, from the leaves up. -/
def place : Sketch → Except Unplaced Outline
  | node draft children => do make draft (← placeAll children)

def placeAll : List Sketch → Except Unplaced (List Outline)
  | [] => return []
  | s :: rest => return (← place s) :: (← placeAll rest)

end

mutual

theorem fill_eq_place (s : Sketch) : s.fill = s.place.map sketch := by
  cases s with
  | node draft children =>
    rw [fill, place, fillAll_eq_placeAll children]
    cases placeAll children with
    | error fault => rfl
    | ok below =>
      simp only [Except.map, bind, Except.bind, pure, Except.pure, drafts_sketchAll, checked_filled]
      cases made : make draft below with
      | error fault => rfl
      | ok o =>
        cases o with
        | node label children =>
          cases children_make made
          rfl

theorem fillAll_eq_placeAll (children : List Sketch) : fillAll children = (placeAll children).map sketchAll := by
  cases children with
  | nil => rfl
  | cons s rest =>
    rw [fillAll, placeAll, fill_eq_place s, fillAll_eq_placeAll rest]
    cases s.place with
    | error fault => rfl
    | ok o =>
      cases placeAll rest with
      | error fault => rfl
      | ok others => rfl

end

theorem fill_iff {s t : Sketch} : s.fill = .ok t ↔ ∃ o, s.place = .ok o ∧ o.sketch = t := by
  rw [fill_eq_place]
  cases s.place with
  | error fault => simp [Except.map]
  | ok o => simp [Except.map]

end Sketch

end Indentation.Outline
