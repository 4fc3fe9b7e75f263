import Indentation.Proofs.Layout

/-! Every line of a well formatted outline starts on a multiple of the unit. The first line
of a part may be the rest of a line that started before it, but every later one is led by a
leaf of the part that stands on a multiple. -/

namespace Indentation.Outline

variable {unit : Int}

/-- Some leaf on the line of a leaf, at or before it, stands on a multiple of the unit. -/
def Led (unit : Int) (leaves : List Label) (leaf : Label) : Prop :=
  ∃ lead ∈ leaves, lead.line = leaf.line ∧ lead.column ≤ leaf.column ∧ unit ∣ lead.column

/-- Only the first line may have started before. -/
def Trails (unit : Int) (o : Outline) : Prop := ∀ leaf ∈ o.leaves, leaf.line ≠ o.label.line → Led unit o.leaves leaf

theorem Led.mono {first second : List Label} {leaf : Label} (led : Led unit first leaf) (subset : first ⊆ second) :
    Led unit second leaf := by
  obtain ⟨lead, member, rest⟩ := led
  exact ⟨lead, subset member, rest⟩

theorem Led.later {leaves : List Label} {leaf other : Label} (led : Led unit leaves leaf) (level : leaf.line = other.line)
    (order : leaf.column ≤ other.column) : Led unit leaves other := by
  obtain ⟨lead, member, line, column, multiple⟩ := led
  exact ⟨lead, member, line.trans level, Int.le_trans column order, multiple⟩

theorem Label.Before.column_le {a b : Label} (before : a.Before b) (level : a.line = b.line) : a.column ≤ b.column := by
  rcases before with earlier | ⟨_, left⟩
  · omega
  · omega

/-- An outline that starts on a multiple is led on every line. -/
theorem Trails.led {o : Outline} (trails : o.Trails unit) (derived : o.Derived) (rising : o.leaves.Pairwise Label.Before)
    (column : unit ∣ o.label.column) {leaf : Label} (member : leaf ∈ o.leaves) : Led unit o.leaves leaf := by
  obtain ⟨first, rest, leaves, line, stands⟩ := derived.leaves_eq
  by_cases level : leaf.line = o.label.line
  · have start : Led unit o.leaves first :=
      ⟨first, by rw [leaves]; exact List.mem_cons_self, rfl, Int.le_refl _, by rwa [stands]⟩
    rw [leaves] at member rising
    rcases List.mem_cons.1 member with rfl | later
    · exact start
    · have same : first.line = leaf.line := line.trans level.symm
      exact start.later same (((List.pairwise_cons.1 rising).1 leaf later).column_le same)
  · exact trails leaf member level

mutual

theorem leaves_subset_labels (o : Outline) : o.leaves ⊆ o.labels := by
  cases o with
  | node label children =>
    cases children with
    | nil => exact fun _ member => member
    | cons first rest =>
      rw [leaves_node, labels]
      exact List.Subset.trans (leavesAll_subset_labelsAll (first :: rest)) (List.subset_cons_self _ _)

theorem leavesAll_subset_labelsAll (os : List Outline) : leavesAll os ⊆ labelsAll os := by
  cases os with
  | nil => exact fun _ member => member
  | cons o rest =>
    rw [leavesAll, labelsAll]
    intro leaf member
    rcases List.mem_append.1 member with here | later
    · exact List.mem_append_left _ (leaves_subset_labels o here)
    · exact List.mem_append_right _ (leavesAll_subset_labelsAll rest later)

end

theorem Flat.leaf {line : Int} {o : Outline} (flat : o.Flat line) {leaf : Label} (member : leaf ∈ o.leaves) :
    leaf.line = line :=
  (flat leaf (leaves_subset_labels o member)).2

theorem Flat.starts {line : Int} {o : Outline} (flat : o.Flat line) : o.label.line = line := by
  cases o with
  | node label children => exact (flat label (by rw [labels]; exact List.mem_cons_self)).2

theorem Stands.leaf {line : Int} {o : Outline} (stands : o.Stands line) (derived : o.Derived) {leaf : Label}
    (member : leaf ∈ o.leaves) : leaf.line = line := by
  rw [(derived.eq_token stands.kind).1, leaves, List.mem_singleton] at member
  rw [member]
  exact stands.line

theorem Formatted.column {k : Nat} {o : Outline} (formatted : Formatted unit .member k o) : o.label.column = k * unit := by
  cases formatted with
  | plain _ _ column => exact column
  | headed _ _ _ _ _ column => exact column
  | braced _ _ _ _ column => exact column
  | controlled _ _ column => exact column

/-- A body opens on the line it is controlled from, or it is a member on later lines. -/
theorem Formatted.body_cases {k : Nat} {loose : Bool} {line : Int} {o : Outline}
    (formatted : Formatted unit (.body loose line) k o) (derived : o.Derived) :
    o.label.line = line ∨ line < o.label.line ∧ loose = true ∧ Formatted unit .member (k + 1) o := by
  cases formatted with
  | direct _ level => exact .inl level
  | wrapped _ _ level => exact .inl (derived.starts.trans level)
  | bare inside later => exact .inr ⟨later, rfl, inside⟩

section Parts

variable {label : Label} {children : List Outline} {k : Nat}

theorem rising_part {o : Outline} (rising : (node label children).leaves.Pairwise Label.Before) (member : o ∈ children) :
    o.leaves.Pairwise Label.Before :=
  rising.sublist (Part.leaves_sublist (.inner member .whole))

theorem pairwise_children (rising : (node label children).leaves.Pairwise Label.Before) :
    children.Pairwise fun a b => ∀ x ∈ a.leaves, ∀ y ∈ b.leaves, x.Before y := by
  cases children with
  | nil => exact .nil
  | cons first rest =>
    rw [leaves_node] at rising
    generalize first :: rest = os at rising
    induction os with
    | nil => exact .nil
    | cons o rest ih =>
      rw [leavesAll, List.pairwise_append] at rising
      refine List.pairwise_cons.2 ⟨?_, ih rising.2.1⟩
      intro other member x left y right
      exact rising.2.2 x left y (mem_leavesAll.2 ⟨other, member, right⟩)

theorem trails_node (derived : (node label children).Derived) (composite : label.kind ≠ .terminal)
    (each : ∀ o ∈ children, ∀ leaf ∈ o.leaves, leaf.line ≠ label.line → Led unit (leavesAll children) leaf) :
    (node label children).Trails unit := by
  have leaves : (node label children).leaves = leavesAll children :=
    leaves_of_ne_nil (derived.children_ne_nil composite)
  intro leaf member other
  rw [leaves] at member ⊢
  obtain ⟨o, listed, inside⟩ := mem_leavesAll.1 member
  exact each o listed leaf inside other

theorem led_of_part {o : Outline} {leaf : Label} (member : o ∈ children) (led : Led unit o.leaves leaf) :
    Led unit (leavesAll children) leaf :=
  led.mono (leaves_sublist_of_mem member).subset

theorem trails_single {o : Outline} (derived : (node label [o]).Derived) (composite : label.kind ≠ .terminal)
    (inside : o.Trails unit) : (node label [o]).Trails unit := by
  refine trails_node derived composite fun part listed leaf within other => ?_
  obtain rfl := List.mem_singleton.1 listed
  exact led_of_part listed (inside leaf within (by rwa [← derived.starts]))

theorem led_of_member {o : Outline} {leaf : Label} (formatted : Formatted unit .member k o) (trails : o.Trails unit)
    (derived : o.Derived) (rising : o.leaves.Pairwise Label.Before) (inside : leaf ∈ o.leaves) :
    Led unit o.leaves leaf := by
  refine trails.led derived rising ?_ inside
  rw [formatted.column]
  exact Int.dvd_mul_left _ _

/-- A body is led on all lines but the one it is controlled from. -/
theorem led_of_body {loose : Bool} {line : Int} {o : Outline} {leaf : Label} (derived : (node label children).Derived)
    (rising : (node label children).leaves.Pairwise Label.Before) (listed : o ∈ children)
    (formatted : Formatted unit (.body loose line) k o) (trails : o.Trails unit) (inside : leaf ∈ o.leaves)
    (other : leaf.line ≠ line) : Led unit (leavesAll children) leaf := by
  apply led_of_part listed
  rcases formatted.body_cases (derived.part listed) with level | ⟨_, _, member⟩
  · exact trails leaf inside (by rwa [level])
  · exact led_of_member member trails (derived.part listed) (rising_part rising listed) inside

/-- What follows a body is led by its last line, or by itself. -/
theorem Continues.led {header : Int} {body : Outline} {next leaf : Label}
    (continues : Continues (k * unit) header body.label next) (trails : body.Trails unit) (derived : body.Derived)
    (listed : body ∈ children) (found : leaf ∈ leavesAll children) (line : leaf.line = next.line)
    (column : leaf.column = next.column) (before : ∀ earlier ∈ body.leaves, earlier.Before leaf) :
    Led unit (leavesAll children) leaf := by
  obtain ⟨later, ⟨starts, stops⟩ | ⟨_, stands⟩⟩ := continues
  · obtain ⟨last, inside, ends⟩ := derived.exists_last
    have level : last.line = leaf.line := by omega
    have led := led_of_part listed (trails last inside (by omega))
    exact led.later level ((before last inside).column_le level)
  · refine ⟨leaf, found, rfl, Int.le_refl _, ?_⟩
    rw [column, stands]
    exact Int.dvd_mul_left _ _

/-- Members between braces are led, and so is the closing brace. -/
theorem trails_of_encloses {header members : List Outline} {opening closing : Outline}
    (derived : (node label (header ++ opening :: (members ++ [closing]))).Derived)
    (rising : (node label (header ++ opening :: (members ++ [closing]))).leaves.Pairwise Label.Before)
    (composite : label.kind ≠ .terminal) (flat : ∀ o ∈ header, o.Stands label.line)
    (encloses : Encloses label.line (k * unit) opening members closing)
    (inside : ∀ o ∈ members, Formatted unit .member (k + 1) o) (trails : ∀ o ∈ members, o.Trails unit) :
    (node label (header ++ opening :: (members ++ [closing]))).Trails unit := by
  refine trails_node derived composite fun o listed leaf within other => ?_
  have part := derived.part listed
  have place := listed
  simp only [List.mem_append, List.mem_cons, List.not_mem_nil, or_false] at place
  rcases place with early | rfl | member | rfl
  · exact absurd ((flat o early).leaf part within) other
  · exact absurd (encloses.opens.leaf part within) other
  · exact led_of_part listed (led_of_member (inside o member) (trails o member) part (rising_part rising listed) within)
  · refine ⟨leaf, mem_leavesAll.2 ⟨o, listed, within⟩, rfl, Int.le_refl _, ?_⟩
    rw [(part.eq_token encloses.closes).1, leaves, List.mem_singleton] at within
    rw [within, encloses.column]
    exact Int.dvd_mul_left _ _

/-- The other branch is led by the word before it, on the line of that word, and by itself below. -/
theorem trails_of_branching {loose : Bool} {header : List Outline} {first otherwise second : Outline}
    (derived : (node label (header ++ [first, otherwise, second])).Derived)
    (rising : (node label (header ++ [first, otherwise, second])).leaves.Pairwise Label.Before)
    (composite : label.kind ≠ .terminal) (flat : ∀ o ∈ header, o.Flat label.line)
    (inside : Formatted unit (.body loose label.line) k first) (token : otherwise.label.kind = .terminal)
    (continues : Continues (k * unit) label.line first.label otherwise.label)
    (alternative : Formatted unit (.body loose otherwise.label.line) k second) (trails : first.Trails unit)
    (again : second.Trails unit) : (node label (header ++ [first, otherwise, second])).Trails unit := by
  have firsts : first ∈ header ++ [first, otherwise, second] := by simp
  have tokens : otherwise ∈ header ++ [first, otherwise, second] := by simp
  have seconds : second ∈ header ++ [first, otherwise, second] := by simp
  have single : otherwise.leaves = [otherwise.label] := by
    rw [((derived.part tokens).eq_token token).1]
    rfl
  obtain ⟨_, ordered, _⟩ := List.pairwise_append.1 (pairwise_children rising)
  simp only [List.pairwise_cons, List.mem_cons, List.not_mem_nil, or_false, forall_eq_or_imp, forall_eq, single] at ordered
  obtain ⟨⟨before, _⟩, after, _⟩ := ordered
  have led : Led unit (leavesAll (header ++ [first, otherwise, second])) otherwise.label :=
    continues.led trails (derived.part firsts) firsts (mem_leavesAll.2 ⟨otherwise, tokens, by simp [single]⟩) rfl rfl
      before
  refine trails_node derived composite fun o listed leaf within other => ?_
  rcases List.mem_append.1 listed with early | late
  · exact absurd ((flat o early).leaf within) other
  simp only [List.mem_cons, List.not_mem_nil, or_false] at late
  rcases late with rfl | rfl | rfl
  · exact led_of_body derived rising firsts inside trails within other
  · rw [single, List.mem_singleton] at within
    rwa [within]
  · by_cases level : leaf.line = otherwise.label.line
    · exact led.later level.symm ((after leaf within).column_le level.symm)
    · exact led_of_body derived rising seconds alternative again within level

/-- The condition after a body stays on one line and is led by what leads its first leaf. -/
theorem trails_of_repeated {head body next : Outline} {rest : List Outline}
    (derived : (node label (head :: body :: next :: rest)).Derived)
    (rising : (node label (head :: body :: next :: rest)).leaves.Pairwise Label.Before)
    (composite : label.kind ≠ .terminal) (flat : head.Flat label.line)
    (inside : Formatted unit (.body true label.line) k body)
    (continues : Continues (k * unit) label.line body.label next.label)
    (condition : ∀ o ∈ next :: rest, o.Flat next.label.line) (trails : body.Trails unit) :
    (node label (head :: body :: next :: rest)).Trails unit := by
  have bodies : body ∈ head :: body :: next :: rest := by simp
  have nexts : next ∈ head :: body :: next :: rest := by simp
  obtain ⟨start, others, leaves, line, column⟩ := (derived.part nexts).leaves_eq
  have starts : start ∈ next.leaves := by rw [leaves]; exact List.mem_cons_self
  obtain ⟨before, _⟩ := List.pairwise_cons.1 (List.pairwise_cons.1 (pairwise_children rising)).2
  have led : Led unit (leavesAll (head :: body :: next :: rest)) start :=
    continues.led trails (derived.part bodies) bodies (mem_leavesAll.2 ⟨next, nexts, starts⟩) line column
      fun earlier member => before next List.mem_cons_self earlier member start starts
  have upward : (start :: (others ++ leavesAll rest)).Pairwise Label.Before := by
    rw [leaves_node, leavesAll, leavesAll, leavesAll, leaves] at rising
    exact (List.pairwise_append.1 (List.pairwise_append.1 rising).2.1).2.1
  refine trails_node derived composite fun o listed leaf within other => ?_
  rcases List.mem_cons.1 listed with rfl | listed
  · exact absurd (flat.leaf within) other
  rcases List.mem_cons.1 listed with rfl | late
  · exact led_of_body derived rising bodies inside trails within other
  have found : leaf ∈ start :: (others ++ leavesAll rest) := by
    have among := mem_leavesAll.2 ⟨o, late, within⟩
    rwa [leavesAll, leaves] at among
  rcases List.mem_cons.1 found with rfl | later
  · exact led
  · have level : start.line = leaf.line := line.trans ((condition o late).leaf within).symm
    exact led.later level (((List.pairwise_cons.1 upward).1 leaf later).column_le level)

end Parts

theorem Formatted.trails {role : Role} {k : Nat} {o : Outline} (formatted : Formatted unit role k o)
    (derived : o.Derived) (rising : o.leaves.Pairwise Label.Before) : o.Trails unit := by
  induction formatted with
  | @plain k label children line kind flat column =>
    have composite : label.kind ≠ .terminal := by rcases kind with kind | kind <;> simp [kind]
    have starts : label.line = line := by
      cases children with
      | nil => exact absurd rfl (derived.children_ne_nil composite)
      | cons first rest => exact derived.starts.trans (flat first List.mem_cons_self).starts
    refine trails_node derived composite fun o listed leaf inside other => ?_
    exact absurd ((flat o listed).leaf inside) (by rwa [starts] at other)
  | @headed k label header block kind flat inside braced level column ih =>
    have composite : label.kind ≠ .terminal := by rcases kind with kind | kind <;> simp [kind]
    refine trails_node derived composite fun o listed leaf within other => ?_
    rcases List.mem_append.1 listed with early | last
    · exact absurd ((flat o early).leaf (derived.part listed) within) other
    · obtain rfl := List.mem_singleton.1 last
      exact led_of_part listed (ih (derived.part listed) (rising_part rising listed) leaf within (by rwa [level]))
  | @braced k label header members opening closing kind flat encloses inside column ih =>
    have composite : label.kind ≠ .terminal := by
      intro single
      simp [single] at kind
    refine trails_of_encloses derived rising composite flat encloses inside fun o member => ?_
    exact ih o member (derived.part (by simp [member])) (rising_part rising (by simp [member]))
  | @controlled k label construct kind inside column ih =>
    refine trails_single derived (by simp [kind]) (ih (derived.part ?_) (rising_part rising ?_))
    all_goals exact List.mem_cons_self
  | @simple k loose label header body kind nonempty flat inside ih =>
    have composite : label.kind ≠ .terminal := by rcases kind with kind | ⟨_, kind | kind⟩ <;> simp [kind]
    refine trails_node derived composite fun o listed leaf within other => ?_
    rcases List.mem_append.1 listed with early | last
    · exact absurd ((flat o early).leaf within) other
    · obtain rfl := List.mem_singleton.1 last
      exact led_of_body derived rising listed inside (ih (derived.part listed) (rising_part rising listed)) within other
  | @branching k loose label header first otherwise second kind length flat inside token continues alternative ih again =>
    have firsts : first ∈ header ++ [first, otherwise, second] := by simp
    have seconds : second ∈ header ++ [first, otherwise, second] := by simp
    exact trails_of_branching derived rising (by simp [kind]) flat inside token continues alternative
      (ih (derived.part firsts) (rising_part rising firsts)) (again (derived.part seconds) (rising_part rising seconds))
  | @repeated k label head body next rest kind flat inside continues condition ih =>
    have bodies : body ∈ head :: body :: next :: rest := by simp
    exact trails_of_repeated derived rising (by simp [kind]) flat inside continues condition
      (ih (derived.part bodies) (rising_part rising bodies))
  | @block k label members opening closing kind encloses inside ih =>
    have headless : (node label ([] ++ opening :: (members ++ [closing]))).Derived := derived
    refine trails_of_encloses headless rising (by simp [kind]) (List.forall_mem_nil _) encloses inside fun o member => ?_
    exact ih o member (derived.part (by simp [member])) (rising_part rising (by simp [member]))
  | chained _ ih => exact ih derived rising
  | direct _ _ ih => exact ih derived rising
  | @wrapped k loose line label o kind inside level ih =>
    refine trails_single derived (by simp [kind]) (ih (derived.part ?_) (rising_part rising ?_))
    all_goals exact List.mem_cons_self
  | bare _ _ ih => exact ih derived rising

end Indentation.Outline
