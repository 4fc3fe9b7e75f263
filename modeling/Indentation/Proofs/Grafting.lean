import Indentation.Proofs.Leading
import Indentation.Proofs.Settling
import Mathlib.Data.List.Find

/-! A tree that stands again in a wider one. The nodes of the small tree have places in the
wide one, with the same data and with the same children below the root. What stands directly
below the root has other siblings there, but none that ends on the line it starts on. No
search from below leads past the root, so every search ends at the same node in both trees,
and whatever the checker says of a node it says again of its place. -/

namespace Indentation

/-- Two nodes with the same data of their own. -/
structure Node.Alike {n m : Nat} (a : Node n) (b : Node m) : Prop where
  kind : a.kind = b.kind
  line : a.line = b.line
  column : a.column = b.column
  stopLine : a.stopLine = b.stopLine
  text : a.text = b.text
  token : a.token = b.token

namespace Tree

/-- Where the nodes of a tree stand in a wider one. -/
structure Grafts (small wide : Tree) (place : small.Id → wide.Id) : Prop where
  narrow : Preorder small
  broad : Preorder wide
  unit : (small.node small.root).kind = .sourceUnit
  unit_wide : (wide.node wide.root).kind = .sourceUnit
  injective : Function.Injective place
  root : place small.root = wide.root
  alike : ∀ {i : small.Id}, i ≠ small.root → (wide.node (place i)).Alike (small.node i)
  children : ∀ {i : small.Id}, i ≠ small.root → (wide.node (place i)).children = (small.node i).children.map place
  single : ∃ top, (small.node small.root).children = [top]
  listed : ∀ {c : small.Id}, c ∈ (small.node small.root).children → place c ∈ (wide.node wide.root).children
  alone : ∀ {c : small.Id}, c ∈ (small.node small.root).children → ∀ s ∈ (wide.node wide.root).children,
    s ≠ place c → (wide.node s).stopLine ≠ (small.node c).line

theorem correctionWithin_root {tree : Tree} {table : Corrections} (bare : Corrections.of? table tree.root.val = none)
    (line : Int) (fuel : Nat) : tree.correctionWithin table line fuel tree.root = none := by
  cases fuel with
  | zero => rfl
  | succ fuel => rw [correctionWithin, bare, parent_root]

namespace Grafts

variable {small wide : Tree} {place : small.Id → wide.Id} (grafts : Grafts small wide place) {i p : small.Id}
include grafts

theorem place_mem (listed : i ∈ (small.node p).children) : place i ∈ (wide.node (place p)).children := by
  by_cases top : p = small.root
  · subst top
    rw [grafts.root]
    exact grafts.listed listed
  · rw [grafts.children top]
    exact List.mem_map_of_mem listed

theorem parent (named : (small.node i).parent = some p) : (wide.node (place i)).parent = some (place p) :=
  wide.linked (grafts.place_mem (grafts.narrow.listed named))

theorem reached {depth : Nat} (reached : Reached small depth i) : Reached wide depth (place i) := by
  induction reached with
  | root =>
    rw [grafts.root]
    exact .root
  | child _ listed ih => exact .child ih (grafts.place_mem listed)

section Anchors

variable (other : i ≠ small.root)
include other

theorem lineParent?_some (step : small.lineParent? i = some p) : wide.lineParent? (place i) = some (place p) := by
  obtain ⟨named, level, kind⟩ := lineParent?_eq_some.1 step
  have inner : p ≠ small.root := by
    rintro rfl
    exact kind grafts.unit
  refine lineParent?_eq_some.2 ⟨grafts.parent named, ?_, ?_⟩
  · rw [(grafts.alike other).line, (grafts.alike inner).line, level]
  · rwa [(grafts.alike inner).kind]

theorem lineParent?_none (stops : small.lineParent? i = none) : wide.lineParent? (place i) = none := by
  obtain ⟨p, named⟩ := grafts.narrow.exists_parent other
  apply lineParent?_eq_none (grafts.parent named)
  by_cases top : p = small.root
  · subst top
    rw [grafts.root]
    exact .inr grafts.unit_wide
  · rw [(grafts.alike other).line, (grafts.alike top).line, (grafts.alike top).kind]
    by_contra both
    obtain ⟨level, kind⟩ := not_or.1 both
    cases stops.symm.trans (lineParent?_eq_some.2 ⟨named, not_not.1 level, kind⟩)

theorem climbs {top : small.Id} (climbs : Climbs small i top) : Climbs wide (place i) (place top) := by
  induction climbs with
  | here => exact .here
  | up step _ ih =>
    refine .up (grafts.lineParent?_some other step) (ih ?_)
    rintro rfl
    exact (lineParent?_eq_some.1 step).2.2 grafts.unit

theorem lineStart {left : small.Id} (found : small.lineStart i = .ok left) :
    wide.lineStart (place i) = .ok (place left) := by
  obtain ⟨p, named⟩ := grafts.narrow.exists_parent other
  have listed := grafts.narrow.listed named
  by_cases top : p = small.root
  · subst top
    obtain ⟨top, single⟩ := grafts.single
    obtain rfl : i = top := by
      rw [single] at listed
      exact List.mem_singleton.1 listed
    have here : left = i := by
      have split : (small.node small.root).children = [] ++ i :: [] := single
      rw [grafts.narrow.lineStart_of_split split] at found
      exact (Except.ok.inj found).symm
    obtain ⟨before, rest, split⟩ := List.append_of_mem (grafts.listed listed)
    have rising := grafts.broad.rising wide.root
    rw [split] at rising
    have leads : Leads wide (place i) := by
      refine grafts.broad.leads_of_split split (grafts.lineParent?_none other ?_) ?_
      · exact lineParent?_eq_none named (.inr grafts.unit)
      · intro s earlier
        have inside : s ∈ (wide.node wide.root).children := by
          rw [split]
          exact List.mem_append_left _ earlier
        have less := (List.pairwise_append.1 rising).2.2 s earlier (place i) List.mem_cons_self
        rw [(grafts.alike other).line]
        exact grafts.alone listed s inside (Fin.ne_of_lt less)
    rw [here]
    exact leads.first
  · obtain ⟨before, rest, split⟩ := List.append_of_mem listed
    have again : (wide.node (place p)).children = before.map place ++ place i :: rest.map place := by
      rw [grafts.children top, split, List.map_append, List.map_cons]
    have same : (before.map place).find? (fun s => (wide.node s).stopLine = (wide.node (place i)).line) =
        (before.find? fun s => (small.node s).stopLine = (small.node i).line).map place := by
      rw [List.find?_map]
      apply congrArg
      apply List.find?_congr
      intro s earlier
      have inner : s ≠ small.root := by
        apply ne_root_of_listed (p := p)
        rw [split]
        exact List.mem_append_left _ earlier
      simp [(grafts.alike inner).stopLine, (grafts.alike other).line]
    rw [grafts.narrow.lineStart_of_split split] at found
    rw [grafts.broad.lineStart_of_split again, same, Option.getD_map, Except.ok.inj found]

theorem leftmost {left : small.Id} (found : small.leftmost i = .ok left) :
    wide.leftmost (place i) = .ok (place left) := by
  obtain ⟨top, climbs, stops, looked⟩ := leftmost_cases found
  have inner := climbs.ne_root grafts.unit other
  rw [grafts.broad.leftmost_of_climbs (grafts.climbs other climbs) (grafts.lineParent?_none inner stops)]
  exact grafts.lineStart inner looked

theorem anchorOf : wide.anchorOf (place i) = place (small.anchorOf i) := by
  induction number : i.val using Nat.strongRecOn generalizing i with
  | ind number ih =>
    obtain ⟨_, reached⟩ := grafts.narrow.reached i
    obtain ⟨left, _, found, _⟩ := reached.leftmost
    have looked := grafts.leftmost other found
    have inner := leftmost_ne_root grafts.unit other found
    by_cases level : (small.node left).line = (small.node i).line
    · rw [Preorder.anchorOf_of_leftmost found level]
      apply Preorder.anchorOf_of_leftmost looked
      rw [(grafts.alike inner).line, (grafts.alike other).line, level]
    · have less := grafts.narrow.hop_lt found level
      rw [grafts.narrow.anchorOf_of_hop found level, ← ih left.val (by omega) inner rfl]
      apply grafts.broad.anchorOf_of_hop looked
      rwa [(grafts.alike inner).line, (grafts.alike other).line]

end Anchors

section Tables

variable {table again : Corrections} (bare : Corrections.of? table small.root.val = none)
  (same : ∀ j ≤ i, Corrections.of? again (place j).val = Corrections.of? table j.val)
include bare same

private theorem correctionWithin (line : Int) {depth few many : Nat} (reached : Reached small depth i)
    (other : i ≠ small.root) (enough : depth < few) (enough' : depth < many) :
    wide.correctionWithin again line many (place i) = small.correctionWithin table line few i := by
  induction few generalizing i depth many with
  | zero => omega
  | succ few ih =>
    obtain ⟨many, rfl⟩ : ∃ fewer, many = fewer + 1 := ⟨many - 1, by omega⟩
    obtain ⟨p, named⟩ := grafts.narrow.exists_parent other
    obtain ⟨above, rfl, upper, _⟩ := reached.up named
    rw [Tree.correctionWithin, Tree.correctionWithin, same i (Fin.le_refl i), named, grafts.parent named]
    cases Corrections.of? table i.val with
    | some correction => rfl
    | none =>
      dsimp only
      by_cases top : p = small.root
      · subst top
        have blank : Corrections.of? again wide.root.val = none := by
          rw [← grafts.root, same small.root (Nat.zero_le i.val), bare]
        rw [grafts.root, correctionWithin_root blank, correctionWithin_root bare, ite_self, ite_self]
      · rw [(grafts.alike top).line]
        refine if_congr Iff.rfl (ih ?_ upper top (by omega) (by omega)) rfl
        intro j before
        exact same j (Fin.le_trans before (Fin.le_of_lt (grafts.narrow.parent_lt named)))

theorem indentOf (other : i ≠ small.root) : wide.indentOf again (place i) = small.indentOf table i := by
  obtain ⟨depth, reached⟩ := grafts.narrow.reached i
  have found := grafts.correctionWithin bare same (small.node i).line reached other reached.depth_lt
    (grafts.reached reached).depth_lt
  rw [Tree.indentOf, Tree.indentOf, (grafts.alike other).line, (grafts.alike other).column, found]

end Tables

section Bodies

variable (other : i ≠ small.root)
include other

private theorem findIdx? (text : String) :
    (wide.node (place i)).children.findIdx? (fun c => (wide.node c).text = text) =
      (small.node i).children.findIdx? fun c => (small.node c).text = text := by
  have texts : (wide.node (place i)).children.map (fun c => (wide.node c).text) =
      (small.node i).children.map fun c => (small.node c).text := by
    rw [grafts.children other, List.map_map]
    exact List.map_congr_left fun c listed => (grafts.alike (ne_root_of_listed listed)).text
  have first := congrArg (List.findIdx? fun t => t = text) texts
  rwa [List.findIdx?_map, List.findIdx?_map] at first

theorem opening? : wide.opening? (place i) = small.opening? i := grafts.findIdx? other "\x7b"

theorem closing? : wide.closing? (place i) = small.closing? i := grafts.findIdx? other "\x7d"

theorem ending? : wide.ending? (place i) = (small.ending? i).map place := by
  have level : ∀ {c : small.Id}, c ∈ (small.node i).children → (wide.node (place c)).line = (small.node c).line :=
    fun listed => (grafts.alike (ne_root_of_listed listed)).line
  rw [Tree.ending?_eq_braces, Tree.ending?_eq_braces]
  unfold Tree.braces?
  rw [grafts.opening? other, grafts.children other]
  cases small.opening? i with
  | none => rfl
  | some position =>
    simp only [Option.bind_eq_bind, Option.bind_some, List.getElem?_map, List.getLast?_map]
    cases opens : (small.node i).children[position]? with
    | none => rfl
    | some first =>
      cases ends : (small.node i).children.getLast? with
      | none => rfl
      | some last =>
        simp only [Option.map_some, Option.bind_some, Option.pure_def, level (List.mem_of_getElem? opens),
          level (List.mem_of_getLast? ends)]
        split
        · rfl
        · rfl

theorem members : wide.members (place i) = (small.members i).map place := by
  unfold Tree.members
  rw [grafts.opening? other, grafts.closing? other, grafts.children other]
  cases small.opening? i with
  | none => rfl
  | some first =>
    cases small.closing? i with
    | none => rfl
    | some last =>
      dsimp only
      rw [← List.map_take, ← List.map_drop, List.filter_map]
      apply congrArg
      apply List.filter_congr
      intro c inside
      have listed := List.mem_of_mem_take (List.mem_of_mem_drop inside)
      simp [Node.isTerminal, (grafts.alike (ne_root_of_listed listed)).token]

end Bodies

/-- The nodes entered below a node are those entered below its place. -/
theorem entered (levels : Nat) (other : i ≠ small.root) :
    (wide.visits levels (place i)).filterMap Visit.entered? =
      ((small.visits levels i).filterMap Visit.entered?).map place := by
  induction levels generalizing i with
  | zero => rfl
  | succ levels ih =>
    rw [entered_visits_succ, entered_visits_succ, List.map_cons, grafts.children other, List.flatMap_map,
      List.filterMap_flatMap, List.filterMap_flatMap, List.map_flatMap]
    apply congrArg
    exact List.flatMap_congr fun c listed => ih (ne_root_of_listed listed)

end Grafts
end Tree

namespace Check.Checker

theorem Settled.of?_root {checker : Checker} {tree : Tree} {Done : tree.Id → Prop} {table : Corrections}
    (settled : checker.Settled [] Done table) : Corrections.of? table tree.root.val = none :=
  settled.fresh fun _ named => nomatch Tree.parent_root.symm.trans named

/-- What is found where a child of a source unit stands. -/
def topFindings (tree : Tree) (c : tree.Id) : List Finding :=
  if (tree.node c).text ≠ "<EOF>" ∧ (tree.node c).column ≠ 0 then [findingOf tree 0 c] else []

section Root

variable {checker : Checker} {tree : Tree} {table : Corrections} (unit : (tree.node tree.root).kind = .sourceUnit)
include unit

theorem mem_misplacedUnder_root {c : tree.Id} :
    c ∈ checker.misplacedUnder table tree.root ↔
      c ∈ (tree.node tree.root).children ∧ (tree.node c).text ≠ "<EOF>" ∧ (tree.node c).column ≠ 0 := by
  rw [misplacedUnder, checked, baseUnder, if_pos unit, if_pos unit, List.mem_filter, List.mem_filter]
  simp only [decide_eq_true_eq, and_assoc]

theorem findingsUnder_root :
    checker.findingsUnder table tree.root = (tree.node tree.root).children.flatMap (topFindings tree) := by
  have bare : misplacedEndUnder table tree.root = none := by
    rw [misplacedEndUnder, if_neg]
    exact fun braced => Kind.ne_sourceUnit_of_hasBraces braced unit
  rw [findingsUnder, misplacedUnder, checked, baseUnder, if_pos unit, if_pos unit, bare, Option.toList_none,
    List.map_nil, List.append_nil]
  induction (tree.node tree.root).children with
  | nil => rfl
  | cons c rest ih =>
    rw [List.flatMap_cons, ← ih, topFindings]
    by_cases file : (tree.node c).text = "<EOF>"
    · simp [file]
    · by_cases placed : (tree.node c).column = 0
      · simp [file, placed]
      · simp [file, placed]

end Root

variable {checker : Checker} {small wide : Tree} {place : small.Id → wide.Id} (grafts : Tree.Grafts small wide place)
  {i : small.Id}
include grafts

theorem child?_grafted (other : i ≠ small.root) (position : Int) :
    child? wide (place i) position = (child? small i position).map place := by
  unfold child?
  rw [grafts.children other]
  split
  · rfl
  · rw [List.getElem?_map]

theorem isLoose_grafted {body : small.Id} (other : i ≠ small.root) (inner : body ≠ small.root) :
    isLoose wide (place i) (place body) = isLoose small i body := by
  have kind : controlledKind wide (place body) = controlledKind small body := by
    unfold controlledKind
    dsimp only
    rw [(grafts.alike inner).kind, grafts.children inner]
    cases listed : (small.node body).children with
    | nil => cases (small.node body).kind <;> rfl
    | cons first rest =>
      have below : first ≠ small.root := by
        apply Tree.ne_root_of_listed (p := body)
        rw [listed]
        exact List.mem_cons_self
      cases (small.node body).kind with
      | statement => exact (grafts.alike below).kind
      | _ => rfl
  rw [isLoose_eq, isLoose_eq, kind, (grafts.alike inner).line, (grafts.alike other).line]

theorem checked_grafted (other : i ≠ small.root) : checker.checked wide (place i) = (checker.checked small i).map place := by
  have files : ((small.node i).children.map place).filter (fun c => (wide.node c).text ≠ "<EOF>") =
      ((small.node i).children.filter fun c => (small.node c).text ≠ "<EOF>").map place := by
    rw [List.filter_map]
    apply congrArg
    apply List.filter_congr
    intro c listed
    simp [(grafts.alike (Tree.ne_root_of_listed listed)).text]
  have slots : checker.slots wide (place i) = checker.slots small i := by
    unfold slots
    rw [(grafts.alike other).kind, grafts.children other, List.length_map]
  have bodies : (checker.slots small i).filterMap (child? wide (place i)) =
      ((checker.slots small i).filterMap (child? small i)).map place := by
    rw [List.map_filterMap]
    exact congrArg (List.filterMap · _) (funext fun position => child?_grafted grafts other position)
  have loose : (((checker.slots small i).filterMap (child? small i)).map place).filter (isLoose wide (place i)) =
      (((checker.slots small i).filterMap (child? small i)).filter (isLoose small i)).map place := by
    rw [List.filter_map]
    apply congrArg
    apply List.filter_congr
    intro body member
    obtain ⟨_, _, found⟩ := List.mem_filterMap.1 member
    exact isLoose_grafted grafts other (Tree.ne_root_of_listed (mem_children_of_child? found))
  have kind := (grafts.alike other).kind
  by_cases unit : (small.node i).kind = .sourceUnit
  · rw [checked_sourceUnit unit, checked_sourceUnit (kind.trans unit), grafts.children other, files]
  · by_cases braced : (small.node i).kind.hasBraces
    · rw [checked_braces braced, checked_braces (kind ▸ braced), grafts.ending? other, grafts.members other,
        Option.isSome_map]
      split
      · rfl
      · rfl
    · have checks : checksBodies small i := checksBodies_iff.2 ⟨unit, braced⟩
      have again : checksBodies wide (place i) := by rwa [checksBodies, kind]
      rw [checked_bodies checks, checked_bodies again, slots, bodies, loose]

theorem findingOf_grafted (column : Int) (other : i ≠ small.root) :
    findingOf wide column (place i) = findingOf small column i := by
  rw [findingOf, findingOf, (grafts.alike other).line, (grafts.alike other).column]

section Tables

variable {table again : Corrections} (bare : Corrections.of? table small.root.val = none)
  (same : ∀ j ≤ i, Corrections.of? again (place j).val = Corrections.of? table j.val) (other : i ≠ small.root)
include bare same other

theorem indentOf_anchor_grafted :
    wide.indentOf again (wide.anchorOf (place i)) = small.indentOf table (small.anchorOf i) := by
  rw [grafts.anchorOf other]
  apply grafts.indentOf bare
  · intro j before
    exact same j (Fin.le_trans before (grafts.narrow.anchorOf_le i))
  · exact grafts.narrow.anchorOf_inner grafts.unit other

theorem misplacedEndUnder_grafted : misplacedEndUnder again (place i) = (misplacedEndUnder table i).map place := by
  unfold misplacedEndUnder
  rw [(grafts.alike other).kind, indentOf_anchor_grafted grafts bare same other, grafts.ending? other, Option.filter_map]
  split
  · cases ends : small.ending? i with
    | none => rfl
    | some last =>
      have listed := List.mem_of_getLast? (Tree.getLast?_of_ending? ends)
      simp only [Option.filter_some, Function.comp_apply, (grafts.alike (Tree.ne_root_of_listed listed)).column]
  · rfl

variable (plain : ∀ c ∈ (small.node small.root).children, ¬ (small.node c).kind.controls)
include plain

/-- A statement directly below the root would be measured from the root. -/
theorem baseUnder_grafted {c : small.Id} (member : c ∈ checker.checked small i) :
    checker.baseUnder again (place i) = checker.baseUnder table i := by
  unfold baseUnder
  rw [(grafts.alike other).kind, indentOf_anchor_grafted grafts bare same other]
  split
  · rfl
  next inner =>
    split
    · rfl
    next bare_of_braces =>
      obtain ⟨p, named⟩ := grafts.narrow.exists_parent other
      have above : p ≠ small.root := by
        rintro rfl
        have checks := checksBodies_iff.2 ⟨inner, bare_of_braces⟩
        exact plain i (grafts.narrow.listed named) (checker.controls_of_checked checks member)
      unfold requiredBody
      rw [named, grafts.parent named]
      dsimp only
      rw [grafts.indentOf bare ?_ above]
      intro j before
      exact same j (Fin.le_trans before (Fin.le_of_lt (grafts.narrow.parent_lt named)))

theorem misplacedUnder_grafted : checker.misplacedUnder again (place i) = (checker.misplacedUnder table i).map place := by
  unfold misplacedUnder
  rw [checked_grafted grafts other, List.filter_map]
  apply congrArg
  apply List.filter_congr
  intro c member
  have inner := Tree.ne_root_of_listed (checker.mem_children_of_checked member)
  simp only [Function.comp_apply, (grafts.alike inner).column, baseUnder_grafted grafts bare same other plain member]

/-- What is found at a node is found at its place. -/
theorem findingsUnder_grafted : checker.findingsUnder again (place i) = checker.findingsUnder table i := by
  unfold findingsUnder
  rw [misplacedUnder_grafted grafts bare same other plain, misplacedEndUnder_grafted grafts bare same other,
    indentOf_anchor_grafted grafts bare same other, Option.toList_map, List.map_map, List.map_map]
  congr 1
  · apply List.map_congr_left
    intro c member
    have inner := Tree.ne_root_of_listed (listed_of_misplacedUnder member)
    rw [Function.comp_apply, baseUnder_grafted grafts bare same other plain (List.mem_of_mem_filter member),
      findingOf_grafted grafts _ inner]
  · apply List.map_congr_left
    intro last member
    have inner := Tree.ne_root_of_listed (listed_of_misplacedEndUnder (Option.mem_toList.1 member))
    rw [Function.comp_apply, findingOf_grafted grafts _ inner]

end Tables

theorem topFindings_grafted (other : i ≠ small.root) : topFindings wide (place i) = topFindings small i := by
  rw [topFindings, topFindings, (grafts.alike other).text, (grafts.alike other).column, findingOf_grafted grafts 0 other]

section Settled

variable {table again : Corrections} (settled : checker.Settled [] (fun _ : small.Id => True) table)
  (settled_wide : checker.Settled [] (fun _ : wide.Id => True) again)
  (plain : ∀ c ∈ (small.node small.root).children, ¬ (small.node c).kind.controls)
include settled settled_wide plain

/-- One step: a correction follows from those at and before the parent. -/
private theorem of?_of_earlier {c p : small.Id}
    (same : ∀ k ≤ p, Corrections.of? again (place k).val = Corrections.of? table k.val)
    (listed : c ∈ (small.node p).children) :
    Corrections.of? again (place c).val = Corrections.of? table c.val := by
  have inner := Tree.ne_root_of_listed listed
  rw [settled.known trivial listed, settled_wide.known trivial (grafts.place_mem listed), (grafts.alike inner).column]
  apply congrArg
  by_cases top : p = small.root
  · subst top
    have base : checker.baseUnder table small.root = 0 := if_pos grafts.unit
    have base_wide : checker.baseUnder again wide.root = 0 := if_pos grafts.unit_wide
    rw [grafts.root, base, base_wide]
    refine if_congr ?_ rfl rfl
    rw [mem_misplacedUnder_root grafts.unit, mem_misplacedUnder_root grafts.unit_wide, (grafts.alike inner).text,
      (grafts.alike inner).column]
    exact and_congr (iff_of_true (grafts.listed listed) listed) Iff.rfl
  · rw [misplacedUnder_grafted grafts settled.of?_root same top plain]
    by_cases member : c ∈ checker.misplacedUnder table p
    · rw [if_pos member, if_pos (List.mem_map_of_mem member),
        baseUnder_grafted grafts settled.of?_root same top plain (List.mem_of_mem_filter member)]
    · rw [if_neg member, if_neg]
      rwa [List.mem_map_of_injective grafts.injective]

/-- A node and its place have the same correction. -/
theorem of?_grafted (j : small.Id) : Corrections.of? again (place j).val = Corrections.of? table j.val := by
  induction number : j.val using Nat.strongRecOn generalizing j with
  | ind _ ih =>
    subst number
    by_cases top : j = small.root
    · rw [top, grafts.root, settled.of?_root, settled_wide.of?_root]
    · obtain ⟨p, named⟩ := grafts.narrow.exists_parent top
      have less : p.val < j.val := grafts.narrow.parent_lt named
      refine of?_of_earlier grafts settled settled_wide plain ?_ (grafts.narrow.listed named)
      intro k before
      have before : k.val ≤ p.val := before
      exact ih k.val (by omega) k rfl

/-- What is found at a node is found at its place, once everything is decided. -/
theorem findingsUnder_settled (other : i ≠ small.root) :
    checker.findingsUnder again (place i) = checker.findingsUnder table i :=
  findingsUnder_grafted grafts settled.of?_root (fun j _ => of?_grafted grafts settled settled_wide plain j) other plain

end Settled

end Check.Checker
end Indentation
