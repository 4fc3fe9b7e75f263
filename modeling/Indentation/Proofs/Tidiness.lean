import Indentation.Proofs.Calm

/-! Nothing is out of place in a well formatted outline. A member leads its line, so it is
its own anchor. What opens on the line of its parent shares the anchor of the parent, and
what goes on after the end of a braced body shares the anchor of that body. So every body is
measured from the column of the depth it was written at. -/

namespace Indentation

namespace Outline

variable {line : Int}

theorem Flat.stops {o : Outline} (flat : o.Flat line) (derived : o.Derived) : o.label.stopLine = line := by
  obtain ⟨leaf, member, ends⟩ := derived.exists_last
  exact ends.symm.trans (flat.leaf member)

theorem Stands.flat {o : Outline} (stands : o.Stands line) (derived : o.Derived) : o.Flat line := by
  intro label member
  rw [(derived.eq_token stands.kind).1, labels, labelsAll, List.mem_singleton] at member
  rw [member]
  exact ⟨.inr stands.kind, stands.line⟩

/-- Whatever does not start on the line starts after everything before it has ended. -/
def Ordered (line : Int) (os : List Outline) : Prop :=
  os.Pairwise fun a b => line < b.label.line → a.label.stopLine < b.label.line

theorem ordered_append {header rest : List Outline} (flat : ∀ o ∈ header, o.Flat line)
    (derived : ∀ o ∈ header, o.Derived) (ordered : Ordered line rest) : Ordered line (header ++ rest) := by
  refine List.pairwise_append.2 ⟨?_, ordered, ?_⟩
  · refine List.pairwise_of_forall_mem_list fun a _ b member later => ?_
    have starts := (flat b member).starts
    omega
  · intro a member b _ later
    have stops := (flat a member).stops (derived a member)
    omega

theorem ordered_of_stacked {os : List Outline} (stacked : Stacked os) : Ordered line os := by
  refine List.Pairwise.imp ?_ stacked
  intro a b before _
  exact before

theorem Formatted.inner_kind {unit : Int} {k : Nat} {o : Outline} (formatted : Formatted unit .inner k o) :
    o.label.kind = .block ∨ o.label.kind = .ifStatement := by
  cases formatted with
  | block kind => exact .inl kind
  | chained inside =>
    cases inside with
    | simple kind =>
      rcases kind with kind | ⟨loose, _⟩
      · exact .inr kind
      · cases loose
    | branching kind => exact .inr kind

end Outline

namespace Check.Checker

open Indentation.Tree

variable {tree : Tree} (preorder : Preorder tree) {i c : tree.Id}
include preorder

theorem anchorOf_of_level (kind : (tree.node i).kind ≠ .sourceUnit) (listed : c ∈ (tree.node i).children)
    (level : (tree.node c).line = (tree.node i).line) : tree.anchorOf c = tree.anchorOf i :=
  preorder.anchorOf_of_lineParent (lineParent?_eq_some.2 ⟨tree.linked listed, level, kind⟩)

theorem leads_of_ordered {o : Outline} (shows : Shows tree i o) (ordered : Outline.Ordered o.label.line o.children)
    (listed : c ∈ (tree.node i).children) (later : (tree.node i).line < (tree.node c).line) : Leads tree c := by
  have apart : (tree.node i).children.Pairwise fun a b =>
      (tree.node i).line < (tree.node b).line → (tree.node a).stopLine < (tree.node b).line := by
    refine pairwise_of_shows shows.forall₂ ordered ?_
    intro a b first second left right before
    rwa [left.fits.stopLine, right.fits.line, shows.fits.line]
  obtain ⟨before, rest, split⟩ := List.append_of_mem listed
  rw [split] at apart
  refine preorder.leads_of_split split (lineParent?_eq_none (tree.linked listed) (.inl (by omega))) ?_
  intro s member
  have ended := (List.pairwise_append.1 apart).2.2 s member c List.mem_cons_self later
  omega

variable {options : Options} {k : Nat}

theorem calm_of_header {line : Int} {ids : List tree.Id} {header : List Outline}
    (shown : List.Forall₂ (Shows tree) ids header) (flat : ∀ o ∈ header, o.Flat line)
    (derived : ∀ o ∈ header, o.Derived) {c : tree.Id} (member : c ∈ ids) : (Checker.mk options {}).Calm tree c := by
  obtain ⟨o, inside, shows⟩ := exists_shown shown member
  exact calm_of_flat preorder (derived o inside) (flat o inside) shows

theorem calm_of_encloses {label : Outline.Label} {header members : List Outline} {opening closing : Outline}
    (shows : Shows tree i (.node label (header ++ opening :: (members ++ [closing]))))
    (derived : (Outline.node label (header ++ opening :: (members ++ [closing]))).Derived) (braced : label.kind.hasBraces)
    (flat : ∀ o ∈ header, o.Stands label.line)
    (encloses : Outline.Encloses label.line (k * options.step) opening members closing)
    (anchor : (tree.node (tree.anchorOf i)).column = k * options.step)
    (columns : ∀ o ∈ members, o.label.column = (k + 1 : Nat) * options.step)
    (inside : ∀ o ∈ members, ∀ c, Shows tree c o → Leads tree c → (Checker.mk options {}).Calm tree c) :
    (Checker.mk options {}).Calm tree i := by
  have parts : ∀ o ∈ header ++ opening :: (members ++ [closing]), o.Derived := fun o => derived.part
  have shapes : ∀ c ∈ (tree.node i).children, ∃ o, Shows tree c o ∧ o.Derived ∧
      (o.label.kind = .terminal ∨ o ∈ members) := by
    intro c listed
    obtain ⟨o, member, shown⟩ := shows.exists_child listed
    refine ⟨o, shown, parts o member, ?_⟩
    simp only [Outline.children, List.mem_append, List.mem_cons, List.not_mem_nil, or_false] at member
    rcases member with early | rfl | within | rfl
    · exact .inl (flat o early).kind
    · exact .inl encloses.opens.kind
    · exact .inr within
    · exact .inl encloses.closes
  refine calm_of_children preorder (quietAt_of_braces (by rw [shows.fits.kind]; exact braced) anchor ?_ ?_) ?_
  · intro c listed composite
    obtain ⟨o, shown, _, single | within⟩ := shapes c listed
    · simp [shown.fits.isTerminal, shown.fits.kind, single] at composite
    · rw [shown.fits.column, columns o within, Int.natCast_succ, Int.add_mul, Int.one_mul]
  · intro last final
    have rows : List.Forall₂ (Shows tree) (tree.node i).children ((header ++ opening :: members) ++ [closing]) := by
      simpa [Outline.children] using shows.forall₂
    rw [(shows_last rows final).fits.column, encloses.column]
  · intro c listed
    obtain ⟨o, shown, deeper, single | within⟩ := shapes c listed
    · exact calm_of_flat preorder deeper (Outline.Stands.flat ⟨single, rfl⟩ deeper) shown
    · have opens := parts opening (by simp)
      have ordered : Outline.Ordered label.line (header ++ opening :: (members ++ [closing])) := by
        refine Outline.ordered_append ?_ ?_ (Outline.ordered_of_stacked encloses.stacked)
        · exact fun o early => (flat o early).flat (parts o (List.mem_append_left _ early))
        · exact fun o early => parts o (List.mem_append_left _ early)
      refine inside o within c shown (leads_of_ordered preorder shows ordered listed ?_)
      have before := (List.pairwise_cons.1 encloses.stacked).1 o (List.mem_append_left _ within)
      have ends := (opens.eq_token encloses.opens.kind).2
      have starts := encloses.opens.line
      rw [shows.fits.line, shown.fits.line]
      change label.line < o.label.line
      omega

/-- What a part needs of its place in the tree. -/
def Ready (tree : Tree) (column : Int) : Outline.Role → tree.Id → Prop
  | .member, i => Leads tree i
  | .construct loose, i =>
    (tree.node (tree.anchorOf i)).column = column ∧
      (loose = true → ∃ p, (tree.node i).parent = some p ∧ (tree.node p).column = column)
  | .inner, i => (tree.node (tree.anchorOf i)).column = column
  | .body _ line, i =>
    ((tree.node i).line = line → (tree.node (tree.anchorOf i)).column = column) ∧
      (line < (tree.node i).line → Leads tree i)

/-- What comes right after a header leads its line, or shares the anchor of its parent. -/
theorem ready_of_header {loose : Bool} {line column : Int} {before rest : List tree.Id} {header : List Outline}
    (kind : (tree.node i).kind ≠ .sourceUnit) (starts : (tree.node i).line = line)
    (split : (tree.node i).children = before ++ c :: rest) (shown : List.Forall₂ (Shows tree) before header)
    (flat : ∀ o ∈ header, o.Flat line) (derived : ∀ o ∈ header, o.Derived)
    (anchor : (tree.node (tree.anchorOf i)).column = column) : Ready tree column (.body loose line) c := by
  have listed : c ∈ (tree.node i).children := by rw [split]; simp
  constructor
  · intro level
    rw [anchorOf_of_level preorder kind listed (level.trans starts.symm)]
    exact anchor
  · intro later
    refine preorder.leads_of_split split (lineParent?_eq_none (tree.linked listed) (.inl (by omega))) ?_
    intro s member
    obtain ⟨o, inside, shows⟩ := exists_shown shown member
    rw [shows.fits.stopLine, (flat o inside).stops (derived o inside)]
    omega

omit preorder in
theorem ownRule_of_body {loose : Bool} {line : Int} {o : Outline} (shows : Shows tree i o)
    (formatted : Outline.Formatted options.step (.body loose line) k o) (level : o.label.line = line) :
    hasOwnRule (controlledKind tree i) := by
  have inner : ∀ {o : Outline}, Outline.Formatted options.step .inner k o → hasOwnRule o.label.kind := by
    intro o formatted
    rcases formatted.inner_kind with kind | kind <;> simp [kind, hasOwnRule]
  cases formatted with
  | direct inside =>
    have kind : controlledKind tree i = o.label.kind := by
      rw [controlledKind, shows.fits.kind]
      rcases inside.inner_kind with kind | kind <;> simp [kind]
    rw [kind]
    exact inner inside
  | @wrapped _ _ _ label part kind inside =>
    obtain ⟨c, rest, shown, _, children⟩ := List.forall₂_cons_right_iff.1 shows.forall₂
    have first : controlledKind tree i = part.label.kind := by
      rw [controlledKind, shows.fits.kind, children, ← shown.fits.kind]
      simp [Outline.label, kind]
    rw [first]
    exact inner inside
  | bare inside later => omega

omit preorder in
theorem column_of_loose {loose : Bool} {line : Int} {o : Outline} (shows : Shows tree c o) (derived : o.Derived)
    (formatted : Outline.Formatted options.step (.body loose line) k o) (free : isLoose tree i c) :
    loose = true ∧ (tree.node c).column = k * options.step + options.step := by
  rcases formatted.body_cases derived with level | ⟨_, allowed, member⟩
  · have ruled := ownRule_of_body shows formatted level
    simp [isLoose_eq, ruled] at free
  · refine ⟨allowed, ?_⟩
    rw [shows.fits.column, member.column, Int.natCast_succ, Int.add_mul, Int.one_mul]

omit preorder in
theorem quietAt_of_slots {loose : Bool} (controls : (tree.node i).kind.controls)
    (ready : Ready tree (k * options.step) (.construct loose) i)
    (slots : ∀ position ∈ (Checker.mk options {}).slots tree i, ∀ c, child? tree i position = some c → isLoose tree i c →
      ∃ line o, Shows tree c o ∧ o.Derived ∧ Outline.Formatted options.step (.body loose line) k o) :
    (Checker.mk options {}).QuietAt tree i := by
  refine quietAt_of_bodies controls ?_
  intro position inside c found free
  obtain ⟨line, o, shows, derived, formatted⟩ := slots position inside c found free
  obtain ⟨allowed, column⟩ := column_of_loose shows derived formatted free
  obtain ⟨p, named, stands⟩ := ready.2 allowed
  exact ⟨p, named, by rw [column, stands]⟩

theorem calm_of_simple {loose : Bool} {label : Outline.Label} {header : List Outline} {body : Outline}
    (shows : Shows tree i (.node label (header ++ [body]))) (derived : (Outline.node label (header ++ [body])).Derived)
    (controls : label.kind.controls) (flat : ∀ o ∈ header, o.Flat label.line)
    (formatted : Outline.Formatted options.step (.body loose label.line) k body)
    (ready : Ready tree (k * options.step) (.construct loose) i)
    (inside : ∀ c, Shows tree c body → Ready tree (k * options.step) (.body loose label.line) c →
      (Checker.mk options {}).Calm tree c) : (Checker.mk options {}).Calm tree i := by
  have fits := shows.fits
  have other : (tree.node i).kind ≠ .sourceUnit := by
    rw [fits.kind]
    exact Kind.ne_sourceUnit_of_controls controls
  have parts : ∀ o ∈ header, o.Derived := fun o member => derived.part (List.mem_append_left _ member)
  obtain ⟨before, after, split, early, late⟩ := split_shown (shows.forall₂ : List.Forall₂ _ _ (header ++ [body]))
  obtain ⟨b, rest, shown, ending, rfl⟩ := List.forall₂_cons_right_iff.1 late
  cases ending
  refine calm_of_children preorder ?_ ?_
  · refine quietAt_of_slots (by rw [fits.kind]; exact controls) ready ?_
    intro position _ c found free
    have listed := mem_children_of_child? found
    rw [split, List.mem_append, List.mem_singleton] at listed
    rcases listed with first | rfl
    · obtain ⟨o, member, shown⟩ := exists_shown early first
      have level : (tree.node c).line = (tree.node i).line := by
        rw [shown.fits.line, (flat o member).starts, fits.line]
        rfl
      simp [isLoose, level] at free
    · exact ⟨label.line, body, shown, derived.part (by simp), formatted⟩
  · intro c listed
    rw [split, List.mem_append, List.mem_singleton] at listed
    rcases listed with first | rfl
    · exact calm_of_header preorder early flat parts first
    · exact inside c shown (ready_of_header preorder other fits.line split early flat parts ready.1)

/-- What follows a body and a token leads its line, or is measured from the depth of the body. -/
theorem ready_of_continues {loose : Bool} {line : Int} {before : List tree.Id} {f e s : tree.Id} {header : List Outline}
    {first otherwise : Outline} (other : (tree.node i).kind ≠ .sourceUnit) (level : (tree.node i).line = line)
    (split : (tree.node i).children = before ++ [f, e, s]) (shown : List.Forall₂ (Shows tree) before header)
    (flat : ∀ o ∈ header, o.Flat line) (derived : ∀ o ∈ header, o.Derived)
    (starts : Shows tree f first) (goes : Shows tree e otherwise) (token : otherwise.Flat otherwise.label.line)
    (placed : otherwise.Derived)
    (continues : Outline.Continues (k * options.step) line first.label otherwise.label)
    (anchor : (tree.node (tree.anchorOf i)).column = k * options.step) :
    Ready tree (k * options.step) (.body loose otherwise.label.line) s := by
  have listed : s ∈ (tree.node i).children := by rw [split]; simp
  have again : (tree.node i).children = (before ++ [f, e]) ++ s :: [] := by rw [split]; simp
  have ended : ∀ b ∈ before, (tree.node b).stopLine = line := by
    intro b member
    obtain ⟨o, inside, shows⟩ := exists_shown shown member
    rw [shows.fits.stopLine, (flat o inside).stops (derived o inside)]
  have stops : (tree.node e).stopLine = otherwise.label.line := by rw [goes.fits.stopLine, token.stops placed]
  obtain ⟨later, shape⟩ := continues
  rw [← starts.fits.line, ← starts.fits.stopLine, ← goes.fits.column] at shape
  constructor
  · intro here
    have alone : tree.lineParent? s = none := lineParent?_eq_none (tree.linked listed) (.inl (by omega))
    have skipped : before.find? (fun b => (tree.node b).stopLine = (tree.node s).line) = none := by
      rw [List.find?_eq_none]
      intro b member
      have := ended b member
      simp only [decide_eq_true_eq]
      omega
    rcases shape with ⟨same, shared⟩ | ⟨past, column⟩
    · -- the body before it ends on the line, so its anchor counts
      have found : (before ++ [f, e]).find? (fun b => (tree.node b).stopLine = (tree.node s).line) = some f := by
        rw [List.find?_append, skipped, List.find?_cons_of_pos (by simp only [decide_eq_true_eq]; omega)]
        rfl
      rw [preorder.anchorOf_of_earlier again alone found (by omega),
        anchorOf_of_level preorder other (by rw [split]; simp) (same.trans level.symm)]
      exact anchor
    · have found : (before ++ [f, e]).find? (fun b => (tree.node b).stopLine = (tree.node s).line) = some e := by
        rw [List.find?_append, skipped, List.find?_cons_of_neg (by simp only [decide_eq_true_eq]; omega),
          List.find?_cons_of_pos (by simp only [decide_eq_true_eq]; omega)]
        rfl
      rw [preorder.anchorOf_of_sibling again alone found (by rw [goes.fits.line, here])]
      exact column
  · intro below
    refine preorder.leads_of_split again (lineParent?_eq_none (tree.linked listed) (.inl (by omega))) ?_
    intro b member
    simp only [List.mem_append, List.mem_cons, List.not_mem_nil, or_false] at member
    rcases member with early | rfl | rfl
    · have := ended b early
      omega
    · omega
    · omega

theorem calm_of_branching {loose : Bool} {label : Outline.Label} {header : List Outline}
    {first otherwise second : Outline} (shows : Shows tree i (.node label (header ++ [first, otherwise, second])))
    (derived : (Outline.node label (header ++ [first, otherwise, second])).Derived) (kind : label.kind = .ifStatement)
    (length : header.length = 4) (flat : ∀ o ∈ header, o.Flat label.line)
    (formatted : Outline.Formatted options.step (.body loose label.line) k first)
    (token : otherwise.label.kind = .terminal)
    (continues : Outline.Continues (k * options.step) label.line first.label otherwise.label)
    (alternative : Outline.Formatted options.step (.body loose otherwise.label.line) k second)
    (ready : Ready tree (k * options.step) (.construct loose) i)
    (inside : ∀ c, Shows tree c first → Ready tree (k * options.step) (.body loose label.line) c →
      (Checker.mk options {}).Calm tree c)
    (within : ∀ c, Shows tree c second → Ready tree (k * options.step) (.body loose otherwise.label.line) c →
      (Checker.mk options {}).Calm tree c) : (Checker.mk options {}).Calm tree i := by
  have fits := shows.fits
  have nodeKind : (tree.node i).kind = .ifStatement := fits.kind.trans kind
  have other : (tree.node i).kind ≠ .sourceUnit := by simp [nodeKind]
  have parts : ∀ o ∈ header, o.Derived := fun o member => derived.part (List.mem_append_left _ member)
  have single : otherwise.Flat otherwise.label.line := Outline.Stands.flat ⟨token, rfl⟩ (derived.part (by simp))
  obtain ⟨before, after, split, early, late⟩ :=
    split_shown (shows.forall₂ : List.Forall₂ _ _ (header ++ [first, otherwise, second]))
  obtain ⟨f, _, starts, more, rfl⟩ := List.forall₂_cons_right_iff.1 late
  obtain ⟨e, _, goes, last, rfl⟩ := List.forall₂_cons_right_iff.1 more
  obtain ⟨s, _, ends, nothing, rfl⟩ := List.forall₂_cons_right_iff.1 last
  cases nothing
  have count : before.length = 4 := early.length_eq.trans length
  refine calm_of_children preorder ?_ ?_
  · refine quietAt_of_slots (by rw [nodeKind]; rfl) ready ?_
    intro position slot c found _
    rw [slots, nodeKind] at slot
    simp only [List.mem_cons, List.not_mem_nil, or_false] at slot
    rw [child?, split] at found
    rcases slot with rfl | rfl
    · have place : (before ++ [f, e, s])[4]? = some f := by rw [List.getElem?_append_right (by omega), count]; rfl
      obtain rfl : f = c := Option.some.inj (place.symm.trans found)
      exact ⟨label.line, first, starts, derived.part (by simp), formatted⟩
    · have place : (before ++ [f, e, s])[6]? = some s := by rw [List.getElem?_append_right (by omega), count]; rfl
      obtain rfl : s = c := Option.some.inj (place.symm.trans found)
      exact ⟨otherwise.label.line, second, ends, derived.part (by simp), alternative⟩
  · intro c listed
    rw [split] at listed
    simp only [List.mem_append, List.mem_cons, List.not_mem_nil, or_false] at listed
    rcases listed with header | rfl | rfl | rfl
    · exact calm_of_header preorder early flat parts header
    · exact inside c starts (ready_of_header preorder other fits.line split early flat parts ready.1)
    · exact calm_of_flat preorder (derived.part (by simp)) single goes
    · exact within c ends (ready_of_continues preorder other fits.line split early flat parts starts goes single
        (derived.part (by simp)) continues ready.1)

theorem calm_of_repeated {label : Outline.Label} {head body : Outline} {rest : List Outline} {line : Int}
    (shows : Shows tree i (.node label (head :: body :: rest)))
    (derived : (Outline.node label (head :: body :: rest)).Derived) (kind : label.kind = .doWhileStatement)
    (flat : head.Flat label.line) (formatted : Outline.Formatted options.step (.body true label.line) k body)
    (condition : ∀ o ∈ rest, o.Flat line) (ready : Ready tree (k * options.step) (.construct true) i)
    (inside : ∀ c, Shows tree c body → Ready tree (k * options.step) (.body true label.line) c →
      (Checker.mk options {}).Calm tree c) : (Checker.mk options {}).Calm tree i := by
  have fits := shows.fits
  have nodeKind : (tree.node i).kind = .doWhileStatement := fits.kind.trans kind
  have other : (tree.node i).kind ≠ .sourceUnit := by simp [nodeKind]
  obtain ⟨h, _, heads, late, split⟩ := List.forall₂_cons_right_iff.1 shows.forall₂
  obtain ⟨b, after, bodies, last, rfl⟩ := List.forall₂_cons_right_iff.1 late
  refine calm_of_children preorder ?_ ?_
  · refine quietAt_of_slots (by rw [nodeKind]; rfl) ready ?_
    intro position slot c found _
    rw [slots, nodeKind] at slot
    simp only [List.mem_cons, List.not_mem_nil, or_false] at slot
    subst slot
    rw [child?, split] at found
    obtain rfl : b = c := Option.some.inj found
    exact ⟨label.line, body, bodies, derived.part (by simp), formatted⟩
  · intro c listed
    rw [split] at listed
    rcases List.mem_cons.1 listed with rfl | listed
    · exact calm_of_flat preorder (derived.part (by simp)) flat heads
    rcases List.mem_cons.1 listed with rfl | listed
    · have begins : (tree.node i).children = [h] ++ c :: after := split
      exact inside c bodies (ready_of_header preorder other fits.line begins (.cons heads .nil)
        (List.forall_mem_singleton.2 flat) (List.forall_mem_singleton.2 (derived.part List.mem_cons_self)) ready.1)
    · exact calm_of_header preorder last condition (fun o member => derived.part (by simp [member])) listed

theorem calm_of_formatted {role : Outline.Role} {o : Outline} (formatted : Outline.Formatted options.step role k o)
    (derived : o.Derived) (shows : Shows tree i o) (ready : Ready tree (k * options.step) role i) :
    (Checker.mk options {}).Calm tree i := by
  induction formatted generalizing i with
  | @plain k label children line kind flat column =>
    have nodeKind : (tree.node i).kind = .other ∨ (tree.node i).kind = .statement := by rwa [shows.fits.kind]
    refine calm_of_children preorder (quietAt_of_plain (nodeKind.imp_right .inl)) ?_
    intro c listed
    obtain ⟨child, member, shown⟩ := shows.exists_child listed
    exact calm_of_flat preorder (derived.part member) (flat child member) shown
  | @headed k label header block kind flat inside braced level column ih =>
    have nodeKind : (tree.node i).kind = .other ∨ (tree.node i).kind = .statement := by rwa [shows.fits.kind]
    have quiet : (Checker.mk options {}).QuietAt tree i := quietAt_of_plain (nodeKind.imp_right .inl)
    refine calm_of_children preorder quiet ?_
    intro c listed
    obtain ⟨child, member, shown⟩ := shows.exists_child listed
    rcases List.mem_append.1 member with early | last
    · exact calm_of_flat preorder (derived.part member) ((flat child early).flat (derived.part member)) shown
    · obtain rfl := List.mem_singleton.1 last
      have same : (tree.node c).line = (tree.node i).line := by
        rw [shown.fits.line, level, shows.fits.line]
        rfl
      refine ih (derived.part member) shown ?_
      rw [Ready, anchorOf_of_level preorder quiet.kind listed same, ready.anchorOf, shows.fits.column]
      exact column
  | @braced k label header members opening closing kind flat encloses inside column ih =>
    have braces : label.kind.hasBraces := by
      simp only [List.mem_cons, List.not_mem_nil, or_false] at kind
      rcases kind with kind | kind | kind | kind | kind | kind <;> simp [kind, Kind.hasBraces]
    refine calm_of_encloses preorder shows derived braces flat encloses ?_ (fun o member => (inside o member).column) ?_
    · rw [ready.anchorOf, shows.fits.column]
      exact column
    · intro o member c shown leads
      exact ih o member (derived.part (by simp [member])) shown leads
  | @controlled k label construct kind inside column ih =>
    have nodeKind : (tree.node i).kind = .statement := shows.fits.kind.trans kind
    have stands : (tree.node i).column = k * options.step := shows.fits.column.trans column
    refine calm_of_children preorder (quietAt_of_plain (.inr (.inl nodeKind))) ?_
    intro c listed
    obtain ⟨child, member, shown⟩ := shows.exists_child listed
    obtain rfl := List.mem_singleton.1 member
    have same : (tree.node c).line = (tree.node i).line := by
      rw [shown.fits.line, ← derived.starts, shows.fits.line]
      rfl
    refine ih (derived.part member) shown ⟨?_, fun _ => ⟨i, tree.linked listed, stands⟩⟩
    rw [anchorOf_of_level preorder (by simp [nodeKind]) listed same, ready.anchorOf, stands]
  | @simple k loose label header body kind nonempty flat inside ih =>
    refine calm_of_simple preorder shows derived ?_ flat inside ready fun c shown => ih (derived.part (by simp)) shown
    rcases kind with kind | ⟨_, kind | kind⟩ <;> simp [kind, Kind.controls]
  | @branching k loose label header first otherwise second kind length flat inside token continues alternative ih again =>
    exact calm_of_branching preorder shows derived kind length flat inside token continues alternative ready
      (fun c shown => ih (derived.part (by simp)) shown) (fun c shown => again (derived.part (by simp)) shown)
  | @repeated k label head body next rest kind flat inside continues condition ih =>
    exact calm_of_repeated preorder shows derived kind flat inside condition ready
      fun c shown => ih (derived.part (by simp)) shown
  | @block k label members opening closing kind encloses inside ih =>
    have headless : Shows tree i (.node label ([] ++ opening :: (members ++ [closing]))) := shows
    refine calm_of_encloses preorder headless derived (by rw [kind]; rfl) (List.forall_mem_nil _) encloses ready
      (fun o member => (inside o member).column) ?_
    intro o member c shown leads
    exact ih o member (derived.part (by simp [member])) shown leads
  | chained _ ih => exact ih derived shows ⟨ready, fun loose => absurd loose Bool.false_ne_true⟩
  | @direct k loose line o inside level ih =>
    exact ih derived shows (ready.1 (shows.fits.line.trans level))
  | @wrapped k loose line label o kind inside level ih =>
    have nodeKind : (tree.node i).kind = .statement := shows.fits.kind.trans kind
    have starts : (tree.node i).line = line := shows.fits.line.trans (derived.starts.trans level)
    refine calm_of_children preorder (quietAt_of_plain (.inr (.inl nodeKind))) ?_
    intro c listed
    obtain ⟨child, member, shown⟩ := shows.exists_child listed
    obtain rfl := List.mem_singleton.1 member
    refine ih (derived.part member) shown ?_
    rw [Ready, anchorOf_of_level preorder (by simp [nodeKind]) listed (by rw [shown.fits.line, level, starts])]
    exact ready.1 starts
  | @bare k line o inside later ih =>
    exact ih derived shows (ready.2 (by rwa [shows.fits.line]))

end Check.Checker
end Indentation
