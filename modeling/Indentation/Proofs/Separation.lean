import Indentation.Proofs.Distinctness
import Indentation.Proofs.Grafting
import Mathlib.Data.List.Pairwise

/-! Parts of a source unit that share no line are checked as if each were alone. The tree of
one part stands in the tree of all of them, so what is misplaced is the same there, and the
lines of a part start with its own tokens. -/

namespace Indentation

namespace Outline

/-- All lines on which something starts or ends. -/
def lines (o : Outline) : List Int := o.labels.flatMap fun label => [label.line, label.stopLine]

theorem line_mem_lines {o : Outline} {label : Label} (member : label ∈ o.labels) : label.line ∈ o.lines :=
  List.mem_flatMap.2 ⟨label, member, List.mem_cons_self⟩

theorem stopLine_mem_lines {o : Outline} {label : Label} (member : label ∈ o.labels) : label.stopLine ∈ o.lines :=
  List.mem_flatMap.2 ⟨label, member, List.mem_cons_of_mem _ List.mem_cons_self⟩

theorem line_of_token {o : Outline} {t : Token} (member : t ∈ o.tokens) : t.line ∈ o.lines := by
  rw [tokens_eq] at member
  obtain ⟨label, inside, token⟩ := List.mem_filterMap.1 member
  unfold Label.token? at token
  split at token
  next =>
    cases token
    exact line_mem_lines inside
  next => cases token

theorem label_mem_labels (o : Outline) : o.label ∈ o.labels := by
  cases o with
  | node label children =>
    rw [labels]
    exact List.mem_cons_self

end Outline

namespace Tree

variable {first second : Tree}

mutual

/-- Two trees that show one outline show its parts alike. -/
theorem Shows.again {i : first.Id} {j : second.Id} {k : Nat} (o : Outline) (here : Shows first i o)
    (there : Shows second j o) (inside : k < o.size) :
    ∃ (p : first.Id) (q : second.Id) (part : Outline), p.val = i.val + k ∧ q.val = j.val + k ∧
      Shows first p part ∧ Shows second q part := by
  cases o with
  | node label children =>
    cases k with
    | zero => exact ⟨i, j, .node label children, rfl, rfl, here, there⟩
    | succ k =>
      rw [Outline.size] at inside
      cases here with
      | node _ below =>
        cases there with
        | node _ beneath =>
          obtain ⟨p, q, part, left, right, shown⟩ := ShowsAll.again children below beneath (k := k) (by omega)
          exact ⟨p, q, part, by omega, by omega, shown⟩

theorem ShowsAll.again {number other k : Nat} {ids : List first.Id} {others : List second.Id} (os : List Outline)
    (here : ShowsAll first number ids os) (there : ShowsAll second other others os) (inside : k < Outline.sizeAll os) :
    ∃ (p : first.Id) (q : second.Id) (part : Outline), p.val = number + k ∧ q.val = other + k ∧
      Shows first p part ∧ Shows second q part := by
  cases os with
  | nil =>
    rw [Outline.sizeAll] at inside
    omega
  | cons o rest =>
    rw [Outline.sizeAll] at inside
    cases here with
    | cons at_number shows later =>
      cases there with
      | cons at_other shown beyond =>
        by_cases early : k < o.size
        · obtain ⟨p, q, part, left, right, both⟩ := Shows.again o shows shown early
          exact ⟨p, q, part, by omega, by omega, both⟩
        · obtain ⟨p, q, part, left, right, both⟩ := ShowsAll.again rest later beyond (k := k - o.size) (by omega)
          exact ⟨p, q, part, by omega, by omega, both⟩

end

theorem ShowsAll.aligned {number other : Nat} {ids : List first.Id} {others : List second.Id} {os : List Outline}
    (here : ShowsAll first number ids os) (there : ShowsAll second other others os) :
    List.Forall₂ (fun p q => number ≤ p.val ∧ p.val + other = q.val + number) ids others := by
  induction os generalizing number other ids others with
  | nil =>
    cases here
    cases there
    exact .nil
  | cons o rest ih =>
    cases here with
    | cons at_number _ later =>
      cases there with
      | cons at_other _ beyond =>
        refine .cons ⟨by omega, by omega⟩ ((ih later beyond).imp ?_)
        rintro p q ⟨lower, moved⟩
        exact ⟨by omega, by omega⟩

/-- The nodes entered below a node that shows an outline, when there are levels enough. -/
theorem Shows.entered_stable {tree : Tree} {i : tree.Id} {o : Outline} {few many : Nat} (shows : Shows tree i o)
    (enough : o.size ≤ few) (enough' : o.size ≤ many) :
    (tree.visits few i).filterMap Visit.entered? = (tree.visits many i).filterMap Visit.entered? := by
  apply (List.map_inj_right fun _ _ => Fin.ext).1
  rw [shows.entered o enough, shows.entered o enough']

theorem exists_top {own : Outline.Label} {c : Outline} {small : Tree}
    (flattened : (Outline.node own [c]).toTree [] = .ok small) :
    ∃ top : small.Id, (small.node small.root).children = [top] ∧ top.val = 1 ∧ Shows small top c := by
  cases shows_toTree flattened with
  | node _ below =>
    generalize (small.node small.root).children = ids at below ⊢
    cases below with
    | @cons _ top _ _ _ here shows later =>
      cases later
      exact ⟨top, rfl, here, shows⟩

section Placing

variable {own label : Outline.Label} {c : Outline} {parts : List Outline} {small wide : Tree} {t : wide.Id}
  (flattened : (Outline.node own [c]).toTree [] = .ok small) (together : (Outline.node label parts).toTree [] = .ok wide)
  (listed : t ∈ (wide.node wide.root).children) (shown : Shows wide t c)
include flattened shown

/-- Below the root the numbers of a part are moved by one distance. -/
theorem exists_place : ∃ place : small.Id → wide.Id, place small.root = wide.root ∧
    ∀ i : small.Id, i ≠ small.root →
      (place i).val + 1 = t.val + i.val ∧ ∃ o, Shows small i o ∧ Shows wide (place i) o := by
  obtain ⟨top, _, first, shows⟩ := exists_top flattened
  have size := size_toTree flattened
  rw [Outline.size, Outline.sizeAll, Outline.sizeAll] at size
  have each : ∀ i : small.Id, ∃ j : wide.Id, (i = small.root → j = wide.root) ∧
      (i ≠ small.root → j.val + 1 = t.val + i.val ∧ ∃ o, Shows small i o ∧ Shows wide j o) := by
    intro i
    by_cases root : i = small.root
    · exact ⟨wide.root, fun _ => rfl, fun other => absurd root other⟩
    · have positive : i.val ≠ 0 := fun zero => root (Fin.ext zero)
      have inside := i.isLt
      obtain ⟨p, q, part, at_p, at_q, here, there⟩ := Shows.again (k := i.val - 1) c shows shown (by omega)
      obtain rfl : p = i := Fin.ext (by omega)
      exact ⟨q, fun same => absurd same root, fun _ => ⟨by omega, part, here, there⟩⟩
  choose place at_root below using each
  exact ⟨place, at_root _ rfl, below⟩

include together listed

/-- The tree of a part stands in the tree of all parts. -/
theorem exists_grafts (unit : own.kind = .sourceUnit) (unit_wide : label.kind = .sourceUnit)
    (alone : ∀ s ∈ (wide.node wide.root).children, s ≠ t → (wide.node s).stopLine ≠ c.label.line) :
    ∃ place : small.Id → wide.Id, Grafts small wide place ∧
      (small.node small.root).children.map place = [t] := by
  obtain ⟨top, single, first, shows⟩ := exists_top flattened
  obtain ⟨place, at_root, below⟩ := exists_place flattened shown
  have later : t.val ≠ 0 := fun zero => ne_root_of_listed listed (Fin.ext zero)
  have number : ∀ i : small.Id, i.val = 0 ∧ (place i).val = 0 ∨ i.val ≠ 0 ∧ (place i).val + 1 = t.val + i.val := by
    intro i
    by_cases root : i = small.root
    · rw [root, at_root]
      exact .inl ⟨rfl, rfl⟩
    · exact .inr ⟨fun zero => root (Fin.ext zero), (below i root).1⟩
  have inner : top ≠ small.root := ne_root_of_listed (by rw [single]; exact List.mem_cons_self)
  have at_top : place top = t := Fin.ext (by have := number top; omega)
  have only : ∀ {d : small.Id}, d ∈ (small.node small.root).children → d = top := by
    intro d member
    rw [single] at member
    exact List.mem_singleton.1 member
  refine ⟨place, ?_, by rw [single, List.map_singleton, at_top]⟩
  refine ⟨preorder_toTree flattened, preorder_toTree together, (shows_toTree flattened).fits.kind.trans unit,
    (shows_toTree together).fits.kind.trans unit_wide, ?_, at_root, ?_, ?_, ⟨top, single⟩, ?_, ?_⟩
  · intro i j same
    have left := number i
    have right := number j
    rw [same] at left
    exact Fin.ext (by omega)
  · intro i other
    obtain ⟨_, o, here, there⟩ := below i other
    have fits := here.fits
    have suits := there.fits
    exact ⟨suits.kind.trans fits.kind.symm, suits.line.trans fits.line.symm, suits.column.trans fits.column.symm,
      suits.stopLine.trans fits.stopLine.symm, suits.text.trans fits.text.symm, suits.token.trans fits.token.symm⟩
  · intro i other
    obtain ⟨moved, o, here, there⟩ := below i other
    cases here with
    | node _ beneath =>
      cases there with
      | node _ under =>
        have placed : List.Forall₂ (fun p q => place p = q) (small.node i).children (wide.node (place i)).children := by
          refine (beneath.aligned under).imp ?_
          rintro p q ⟨lower, distance⟩
          have := number p
          exact Fin.ext (by omega)
        rw [← List.forall₂_map_left_iff, List.forall₂_eq_eq_eq] at placed
        exact placed.symm
  · intro d member
    rwa [only member, at_top]
  · intro d member s inside
    rw [only member, at_top, shows.fits.line]
    exact alone s inside

end Placing

/-- A node below the root carries a label of a part. -/
theorem exists_label {label : Outline.Label} {parts : List Outline} {hidden : List Token} {tree : Tree} {i : tree.Id}
    (flattened : (Outline.node label parts).toTree hidden = .ok tree) (other : i ≠ tree.root) :
    ∃ c ∈ parts, ∃ own ∈ c.labels, own.Fits (tree.node i) := by
  obtain ⟨own, found, fits⟩ := fits_toTree flattened i
  have later : i.val ≠ 0 := fun zero => other (Fin.ext zero)
  rw [Outline.labels, ← Nat.succ_pred_eq_of_ne_zero later, List.getElem?_cons_succ] at found
  obtain ⟨c, member, inside⟩ := Outline.mem_labelsAll.1 (List.mem_of_getElem? found)
  exact ⟨c, member, own, inside, fits⟩

theorem entered_eq {root : Outline} {hidden : List Token} {tree : Tree} (flattened : root.toTree hidden = .ok tree) :
    tree.entered = tree.root :: (tree.node tree.root).children.flatMap fun c =>
      (tree.visits tree.size c).filterMap Visit.entered? := by
  have size := size_toTree flattened
  have stable : (tree.visits tree.size tree.root).filterMap Visit.entered? =
      (tree.visits (tree.size + 1) tree.root).filterMap Visit.entered? :=
    (shows_toTree flattened).entered_stable (by omega) (by omega)
  rw [entered, walk_eq_visits, stable, entered_visits_succ, List.filterMap_flatMap]

end Tree

namespace Check.Checker

variable {checker : Checker}

/-- What is found at a child of the root and below it. -/
def straysBelow (checker : Checker) (tree : Tree) (table : Corrections) (c : tree.Id) : List Finding :=
  topFindings tree c ++
    ((tree.visits tree.size c).filterMap Tree.Visit.entered?).flatMap (checker.findingsUnder table)

theorem straysUnder_perm {root : Outline} {hidden : List Token} {tree : Tree} (flattened : root.toTree hidden = .ok tree)
    (unit : (tree.node tree.root).kind = .sourceUnit) (table : Corrections) :
    (checker.straysUnder tree table).Perm ((tree.node tree.root).children.flatMap (checker.straysBelow tree table)) := by
  rw [straysUnder, Tree.entered_eq flattened, List.flatMap_cons, findingsUnder_root unit, List.flatMap_assoc]
  exact List.flatMap_append_perm _ _ _

section Parts

variable {own label : Outline.Label} {c : Outline} {parts : List Outline} {small wide : Tree} {t : wide.Id}
  {table again : Corrections} (settled : checker.Settled [] (fun _ : small.Id => True) table)
  (settled_wide : checker.Settled [] (fun _ : wide.Id => True) again)
include settled settled_wide

theorem straysBelow_grafted {place : small.Id → wide.Id} (grafts : Tree.Grafts small wide place)
    (plain : ∀ c ∈ (small.node small.root).children, ¬ (small.node c).kind.controls) {top : small.Id}
    (other : top ≠ small.root) (shows : Tree.Shows small top c) (inside : c.size ≤ small.size) :
    checker.straysBelow wide again (place top) = checker.straysBelow small table top := by
  have smaller : small.size ≤ wide.size := by
    simpa using Fintype.card_le_of_injective place grafts.injective
  have stable : (small.visits wide.size top).filterMap Tree.Visit.entered? =
      (small.visits small.size top).filterMap Tree.Visit.entered? := shows.entered_stable (by omega) inside
  rw [straysBelow, straysBelow, topFindings_grafted grafts other, grafts.entered wide.size other, stable,
    List.flatMap_map]
  apply congrArg
  apply List.flatMap_congr
  intro j entered
  apply findingsUnder_settled grafts settled settled_wide plain
  rintro rfl
  -- the numbers entered below a node are not smaller than its own
  have listed := List.mem_map_of_mem (f := Fin.val) entered
  rw [shows.entered c inside, List.mem_range'_1] at listed
  exact other (Fin.ext (Nat.le_zero.1 listed.1))

/-- A part is found misplaced among others as it is alone. -/
theorem straysBelow_perm (flattened : (Outline.node own [c]).toTree [] = .ok small)
    (together : (Outline.node label parts).toTree [] = .ok wide) (listed : t ∈ (wide.node wide.root).children)
    (shown : Tree.Shows wide t c) (unit : own.kind = .sourceUnit) (unit_wide : label.kind = .sourceUnit)
    (plain : ¬ c.label.kind.controls)
    (alone : ∀ s ∈ (wide.node wide.root).children, s ≠ t → (wide.node s).stopLine ≠ c.label.line) :
    (checker.straysBelow wide again t).Perm (checker.straysUnder small table) := by
  obtain ⟨top, single, _, shows⟩ := Tree.exists_top flattened
  obtain ⟨place, grafts, placed⟩ := Tree.exists_grafts flattened together listed shown unit unit_wide alone
  have inside : c.size ≤ small.size := by
    rw [Tree.size_toTree flattened, Outline.size, Outline.sizeAll]
    omega
  have other : top ≠ small.root := Tree.ne_root_of_listed (by rw [single]; exact List.mem_cons_self)
  obtain rfl : place top = t := by simpa [single] using placed
  have bare : ∀ d ∈ (small.node small.root).children, ¬ (small.node d).kind.controls := by
    rw [single]
    intro d member
    rw [List.mem_singleton.1 member, shows.fits.kind]
    exact plain
  have perm : (checker.straysUnder small table).Perm _ := straysUnder_perm flattened grafts.unit table
  rw [single, List.flatMap_singleton] at perm
  rw [straysBelow_grafted settled settled_wide grafts bare other shows inside]
  exact perm.symm

end Parts

/-- A source unit over outlines, flattened and checked. -/
structure Examined (checker : Checker) (parts : List Outline) (label : Outline.Label) (tree : Tree) (s : State) : Prop where
  unit : label.kind = .sourceUnit
  made : Outline.make { kind := .sourceUnit } parts = .ok (.node label parts)
  flattened : (Outline.node label parts).toTree [] = .ok tree
  checked : checker.check tree {} = .ok () s
  checks : checker.Checks [] (fun _ : tree.Id => False) {} s

theorem exists_examined (checker : Checker) {parts : List Outline} (some_part : parts ≠ [])
    (only : ∀ c ∈ parts, ∀ label ∈ c.labels, label.kind ≠ .sourceUnit) :
    ∃ label tree s, checker.Examined parts label tree s := by
  obtain ⟨label, unit, made⟩ : ∃ label : Outline.Label, label.kind = .sourceUnit ∧
      Outline.make { kind := .sourceUnit } parts = .ok (.node label parts) := by
    cases parts with
    | nil => exact absurd rfl some_part
    | cons c rest => exact ⟨_, rfl, rfl⟩
  obtain ⟨tree, flattened⟩ := Tree.exists_toTree (.node label parts) []
  have inner : ∀ label ∈ (Outline.node label parts).labels.tail, label.kind ≠ .sourceUnit := by
    intro own member
    rw [Outline.labels, List.tail_cons, Outline.mem_labelsAll] at member
    obtain ⟨c, inside, below⟩ := member
    exact only c inside own below
  obtain ⟨s, checked, checks⟩ := checker.exists_checks (only_root_of_labels flattened inner) {}
  exact ⟨label, tree, s, unit, made, flattened, checked, checks⟩

namespace Examined

variable {parts : List Outline} {label : Outline.Label} {tree : Tree} {s : State}
  (examined : checker.Examined parts label tree s)
include examined

theorem unit_root : (tree.node tree.root).kind = .sourceUnit :=
  (Tree.shows_toTree examined.flattened).fits.kind.trans examined.unit

theorem settled : checker.Settled [] (fun _ : tree.Id => True) s.corrections := by
  have entered : tree.entered = List.finRange tree.size := (Tree.preorder_toTree examined.flattened).entered
  simpa [entered] using examined.checks.settled

theorem findings : s.findings = checker.straysUnder tree s.corrections ++ checker.unevenOutside tree s.flaggedLines := by
  simpa [examined.unit_root] using examined.checks.findings

theorem mem_flaggedLines {line : Int} :
    line ∈ s.flaggedLines ↔ ∃ finding ∈ checker.straysUnder tree s.corrections, finding.line = line := by
  simpa [State.flaggedLines] using examined.checks.flagged line

theorem mem_tokens {t : Token} : t ∈ tree.tokens ↔ ∃ c ∈ parts, t ∈ c.tokens := by
  have none : label.token? = none := by simp [Outline.Label.token?, examined.unit]
  rw [(Tree.tokens_toTree examined.flattened).mem_iff, List.append_nil, Outline.tokens_eq, Outline.labels,
    List.filterMap_cons_none none]
  simp only [Outline.tokens_eq, List.mem_filterMap, Outline.mem_labelsAll]
  constructor
  · rintro ⟨own, ⟨c, member, inside⟩, token⟩
    exact ⟨c, member, own, inside, token⟩
  · rintro ⟨c, member, own, inside, token⟩
    exact ⟨own, ⟨c, member, inside⟩, token⟩

/-- Something misplaced stands on a line of a part. -/
theorem line_of_stray {finding : Finding} (stray : finding ∈ checker.straysUnder tree s.corrections) :
    ∃ c ∈ parts, finding.line ∈ c.lines := by
  obtain ⟨i, _, inside⟩ := List.mem_flatMap.1 stray
  have place := (places_findingsUnder s.corrections i).subset (List.mem_map_of_mem inside)
  obtain ⟨d, measured, same⟩ := List.mem_map.1 place
  have inner : d ≠ tree.root := Tree.ne_root_of_parent (parent_of_measured measured)
  obtain ⟨c, member, own, below, fits⟩ := Tree.exists_label examined.flattened inner
  refine ⟨c, member, ?_⟩
  rw [← (Prod.mk.inj same).1, fits.line]
  exact Outline.line_mem_lines below

theorem line_of_startsAt {line column : Int} (starts : StartsAt tree line column) : ∃ c ∈ parts, line ∈ c.lines := by
  obtain ⟨⟨t, member, _, _, level, _⟩, _⟩ := starts
  obtain ⟨c, inside, token⟩ := examined.mem_tokens.1 member
  exact ⟨c, inside, level ▸ Outline.line_of_token token⟩

end Examined

private theorem flatMap_perm {α β γ : Type} {R : α → β → Prop} {f : α → List γ} {g : β → List γ} {as : List α}
    {bs : List β} (related : List.Forall₂ R as bs)
    (each : ∀ a ∈ as, ∀ b ∈ bs, R a b → (f a).Perm (g b)) : (as.flatMap f).Perm (bs.flatMap g) := by
  induction related with
  | nil => exact .nil
  | cons first _ ih =>
    rw [List.flatMap_cons, List.flatMap_cons]
    refine (each _ List.mem_cons_self _ List.mem_cons_self first).append (ih ?_)
    intro a left b right
    exact each a (List.mem_cons_of_mem _ left) b (List.mem_cons_of_mem _ right)

/-- No two parts share a line. -/
private theorem eq_of_line {parts : List Outline} (apart : parts.Pairwise fun a b => List.Disjoint a.lines b.lines)
    {c d : Outline} {line : Int} (first : c ∈ parts) (second : d ∈ parts) (here : line ∈ c.lines) (there : line ∈ d.lines) :
    c = d := by
  by_contra other
  have : Std.Symm fun a b : Outline => List.Disjoint a.lines b.lines := ⟨fun _ _ disjoint => disjoint.symm⟩
  exact apart.forall first second other here there

section Together

variable {parts : List Outline} {label : Outline.Label} {wide : Tree} {w : State}
  (whole : checker.Examined parts label wide w) {own : Outline → Outline.Label} {small : Outline → Tree}
  {s : Outline → State} (each : ∀ c ∈ parts, checker.Examined [c] (own c) (small c) (s c))
  (apart : parts.Pairwise fun a b => List.Disjoint a.lines b.lines)
include whole each apart

theorem strays_perm (plain : ∀ c ∈ parts, ¬ c.label.kind.controls) :
    (checker.straysUnder wide w.corrections).Perm
      (parts.flatMap fun c => checker.straysUnder (small c) (s c).corrections) := by
  have shown := (Tree.shows_toTree whole.flattened).forall₂
  have ends : (wide.node wide.root).children.Pairwise fun a b =>
      (wide.node a).stopLine ≠ (wide.node b).line ∧ (wide.node b).stopLine ≠ (wide.node a).line := by
    refine Tree.pairwise_of_shows shown apart ?_
    intro a b first second here there disjoint
    rw [here.fits.line, here.fits.stopLine, there.fits.line, there.fits.stopLine]
    have inside := first.label_mem_labels
    have within := second.label_mem_labels
    constructor
    · intro same
      exact disjoint (Outline.stopLine_mem_lines inside) (same ▸ Outline.line_mem_lines within)
    · intro same
      exact disjoint (same ▸ Outline.line_mem_lines inside) (Outline.stopLine_mem_lines within)
  refine (straysUnder_perm whole.flattened whole.unit_root w.corrections).trans (flatMap_perm shown ?_)
  intro t listed c member shows
  have part := each c member
  refine straysBelow_perm part.settled whole.settled part.flattened whole.flattened listed shows part.unit whole.unit
    (plain c member) ?_
  intro s inside other
  have : Std.Symm fun a b : wide.Id =>
      (wide.node a).stopLine ≠ (wide.node b).line ∧ (wide.node b).stopLine ≠ (wide.node a).line := ⟨fun _ _ => And.symm⟩
  rw [← shows.fits.line]
  exact (ends.forall inside listed other).1

theorem startsAt_part {c : Outline} {line column : Int} (member : c ∈ parts) (inside : line ∈ c.lines) :
    StartsAt wide line column ↔ StartsAt (small c) line column := by
  apply startsAt_congr
  intro t level
  rw [whole.mem_tokens, (each c member).mem_tokens]
  constructor
  · rintro ⟨d, other, token⟩
    have there := Outline.line_of_token token
    rw [level] at there
    exact ⟨d, List.mem_singleton.2 (eq_of_line apart other member there inside), token⟩
  · rintro ⟨d, alone, token⟩
    rw [List.mem_singleton.1 alone] at token
    exact ⟨c, member, token⟩

theorem flagged_part (plain : ∀ c ∈ parts, ¬ c.label.kind.controls) {c : Outline} {line : Int} (member : c ∈ parts)
    (inside : line ∈ c.lines) : line ∈ w.flaggedLines ↔ line ∈ (s c).flaggedLines := by
  rw [whole.mem_flaggedLines, (each c member).mem_flaggedLines]
  simp only [(strays_perm whole each apart plain).mem_iff, List.mem_flatMap]
  constructor
  · rintro ⟨finding, ⟨d, other, stray⟩, level⟩
    obtain ⟨e, alone, there⟩ := (each d other).line_of_stray stray
    rw [List.mem_singleton.1 alone, level] at there
    rw [eq_of_line apart other member there inside] at stray
    exact ⟨finding, stray, level⟩
  · rintro ⟨finding, stray, level⟩
    exact ⟨finding, ⟨c, member, stray⟩, level⟩

/-- The uneven lines are those of the parts. -/
theorem uneven_perm (plain : ∀ c ∈ parts, ¬ c.label.kind.controls) :
    (checker.unevenOutside wide w.flaggedLines).Perm
      (parts.flatMap fun c => checker.unevenOutside (small c) (s c).flaggedLines) := by
  have line : ∀ {c : Outline} {finding : Finding}, c ∈ parts →
      finding ∈ checker.unevenOutside (small c) (s c).flaggedLines → finding.line ∈ c.lines := by
    intro c finding member found
    obtain ⟨d, alone, inside⟩ := (each c member).line_of_startsAt (mem_unevenOutside.1 found).1
    rwa [List.mem_singleton.1 alone] at inside
  have distinct : (parts.flatMap fun c => checker.unevenOutside (small c) (s c).flaggedLines).Nodup := by
    refine List.nodup_flatMap.2 ⟨fun c _ => nodup_of_rising (unevenOutside_rising _), apart.imp_of_mem ?_⟩
    intro c d first second disjoint finding here there
    exact disjoint (line first here) (line second there)
  rw [List.perm_ext_iff_of_nodup (nodup_of_rising (unevenOutside_rising _)) distinct]
  intro finding
  rw [List.mem_flatMap]
  constructor
  · intro found
    obtain ⟨starts, uneven, cause, free⟩ := mem_unevenOutside.1 found
    obtain ⟨c, member, inside⟩ := whole.line_of_startsAt starts
    refine ⟨c, member, mem_unevenOutside.2 ⟨?_, uneven, cause, ?_⟩⟩
    · exact (startsAt_part whole each apart member inside).1 starts
    · rwa [← flagged_part whole each apart plain member inside]
  · rintro ⟨c, member, found⟩
    have inside := line member found
    obtain ⟨starts, uneven, cause, free⟩ := mem_unevenOutside.1 found
    refine mem_unevenOutside.2 ⟨?_, uneven, cause, ?_⟩
    · exact (startsAt_part whole each apart member inside).2 starts
    · rwa [flagged_part whole each apart plain member inside]

end Together

/-- What is found in a source unit over outlines. -/
def Yields (checker : Checker) (parts : List Outline) (found : List Diagnostic) : Prop :=
  ∃ (root : Outline) (tree : Tree) (s : State), Outline.make { kind := .sourceUnit } parts = .ok root ∧
    root.toTree [] = .ok tree ∧ checker.check tree {} = .ok () s ∧ s.diagnostics checker.options = found

theorem Examined.yields {parts : List Outline} {label : Outline.Label} {tree : Tree} {s : State}
    (examined : checker.Examined parts label tree s) : checker.Yields parts (s.diagnostics checker.options) :=
  ⟨_, tree, s, examined.made, examined.flattened, examined.checked, rfl⟩

/-- Parts of a source unit that share no line do not interfere. -/
theorem check_separate_parts (parts : List Outline) (some_part : parts ≠ [])
    (only : ∀ c ∈ parts, ∀ label ∈ c.labels, label.kind ≠ .sourceUnit) (plain : ∀ c ∈ parts, ¬ c.label.kind.controls)
    (apart : parts.Pairwise fun a b => List.Disjoint a.lines b.lines) (options : Options) (profile : Profile) :
    ∃ (whole : List Diagnostic) (part : Outline → List Diagnostic),
      (Checker.mk options profile).Yields parts whole ∧
      (∀ c ∈ parts, (Checker.mk options profile).Yields [c] (part c)) ∧ whole.Perm (parts.flatMap part) := by
  let checker : Checker := ⟨options, profile⟩
  obtain ⟨label, wide, w, whole⟩ := checker.exists_examined some_part only
  have alone : ∀ c ∈ parts, ∃ (own : Outline.Label) (small : Tree) (s : State), checker.Examined [c] own small s := by
    intro c member
    apply checker.exists_examined (List.cons_ne_nil c [])
    intro d inside
    rw [List.mem_singleton.1 inside]
    exact only c member
  have : Nonempty Outline.Label := ⟨label⟩
  have : Nonempty Tree := ⟨wide⟩
  have : Nonempty State := ⟨w⟩
  choose! own small s each using alone
  refine ⟨w.diagnostics options, fun c => (s c).diagnostics options, whole.yields, fun c member => (each c member).yields, ?_⟩
  have findings : w.findings.Perm (parts.flatMap fun c => (s c).findings) := by
    have split : (parts.flatMap fun c => (s c).findings) = parts.flatMap fun c =>
        checker.straysUnder (small c) (s c).corrections ++ checker.unevenOutside (small c) (s c).flaggedLines :=
      List.flatMap_congr fun c member => (each c member).findings
    rw [whole.findings, split]
    exact ((strays_perm whole each apart plain).append (uneven_perm whole each apart plain)).trans
      (List.flatMap_append_perm _ _ _)
  have mapped := findings.map (·.diagnostic options.unit)
  rwa [List.map_flatMap] at mapped

/-- A block that is too far to the right, two words one below the other, and the end. -/
def stacked : List Outline :=
  slanted.children ++
    [.node ⟨.other, none, 5, 1, 6, 0, 0⟩
      [.node ⟨.terminal, some "y", 5, 1, 5, 0, 0⟩ [], .node ⟨.terminal, some "z", 6, 3, 6, 0, 0⟩ []],
      .node ⟨.terminal, some "<EOF>", 8, 2, 8, 0, 0⟩ []]

theorem check_separate_parts_stacked :
    (stacked.Pairwise fun a b => List.Disjoint a.lines b.lines) ∧
    ∃ (whole : List Diagnostic) (part : Outline → List Diagnostic),
      (Checker.mk .fallback {}).Yields stacked whole ∧
      (∀ c ∈ stacked, (Checker.mk .fallback {}).Yields [c] (part c)) ∧ whole.Perm (stacked.flatMap part) := by
  have different : stacked.Pairwise fun a b => ∀ line ∈ a.lines, line ∉ b.lines := by decide
  have apart : stacked.Pairwise fun a b => List.Disjoint a.lines b.lines :=
    different.imp fun outside line here there => outside line here there
  exact ⟨apart, check_separate_parts stacked (by decide) (by decide) (by decide) apart .fallback {}⟩

end Check.Checker
end Indentation
