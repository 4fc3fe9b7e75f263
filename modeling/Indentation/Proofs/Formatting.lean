import Indentation.Proofs.Tidiness

/-! Checking a well formatted source unit finds nothing and corrects nothing. Its members
lead their lines in column zero, nothing below them is out of place, and every line starts
on a multiple of the step. -/

namespace Indentation

namespace Outline

/-- In a derived outline the tokens are the leaves. -/
theorem Derived.mem_leaves_iff {o : Outline} (derived : o.Derived) {label : Label} :
    label ∈ o.leaves ↔ label ∈ o.labels ∧ label.kind = .terminal := by
  induction derived with
  | @token own kind =>
    simp only [leaves, labels, labelsAll, List.mem_singleton]
    constructor
    · rintro rfl
      exact ⟨rfl, kind⟩
    · exact fun same => same.1
  | @composite own first rest kind _ _ _ _ ih =>
    rw [leaves_node, labels, mem_leavesAll, List.mem_cons, mem_labelsAll]
    constructor
    · rintro ⟨o, member, inside⟩
      obtain ⟨found, single⟩ := (ih o member).1 inside
      exact ⟨.inr ⟨o, member, found⟩, single⟩
    · rintro ⟨rfl | ⟨o, member, found⟩, single⟩
      · exact absurd single kind
      · exact ⟨o, member, (ih o member).2 ⟨found, single⟩⟩

theorem Derived.mem_tokens_iff {o : Outline} (derived : o.Derived) {token : Token} :
    token ∈ o.tokens ↔ ∃ leaf ∈ o.leaves, leaf.token? = some token := by
  rw [tokens_eq, List.mem_filterMap]
  constructor
  · rintro ⟨label, member, found⟩
    have single : label.kind = .terminal := by
      by_contra other
      simp [Label.token?, other] at found
    exact ⟨label, derived.mem_leaves_iff.2 ⟨member, single⟩, found⟩
  · rintro ⟨leaf, member, found⟩
    exact ⟨leaf, leaves_subset_labels o member, found⟩

theorem Derived.mem_leaves {o : Outline} (derived : o.Derived) (composite : o.label.kind ≠ .terminal) {leaf : Label} :
    leaf ∈ o.leaves ↔ ∃ part ∈ o.children, leaf ∈ part.leaves := by
  cases o with
  | node label children =>
    rw [leaves_of_ne_nil (derived.children_ne_nil composite)]
    exact mem_leavesAll

theorem Tidy.part {unit : Int} {root o : Outline} (tidy : root.Tidy unit) (member : o ∈ root.children) :
    o.Derived ∧ o.leaves.Pairwise Label.Before := by
  have tidied := tidy.derived
  have rising := tidy.rising
  cases root with
  | node label children => exact ⟨tidied.part member, rising_part rising member⟩

def word (text : String) (line column : Int) : Outline := node ⟨.terminal, some text, line, column, line, 0, 0⟩ []

def row (kind : Kind) (first : Outline) (rest : List Outline) : Outline :=
  node ⟨kind, none, first.label.line, first.label.column, (rest.getLast?.getD first).label.stopLine, 0, 0⟩ (first :: rest)

theorem derived_word (text : String) (line column : Int) : (word text line column).Derived := .token rfl rfl

theorem derived_row {kind : Kind} {first : Outline} {rest : List Outline} (composite : kind ≠ .terminal)
    (parts : ∀ o ∈ first :: rest, o.Derived) : (row kind first rest).Derived :=
  .composite composite rfl rfl (by rw [List.getLast?_cons]; rfl) parts

theorem flat_word (text : String) (line column : Int) : (word text line column).Flat line :=
  Stands.flat ⟨rfl, rfl⟩ (derived_word text line column)

def braced (opening inner closing : Int × Int) : Outline :=
  row .block (word "\x7b" opening.1 opening.2)
    [row .statement (word "x" inner.1 inner.2) [], word "\x7d" closing.1 closing.2]

theorem derived_braced (opening inner closing : Int × Int) : (braced opening inner closing).Derived := by
  refine derived_row (by decide) ?_
  simp only [List.forall_mem_cons]
  refine ⟨derived_word .., derived_row (by decide) ?_, derived_word .., List.forall_mem_nil _⟩
  simp only [List.forall_mem_singleton]
  exact derived_word ..

theorem formatted_braced {unit first second third opens : Int} (after : first < second) (before : second < third) :
    Formatted unit .inner 0 (braced (first, opens) (second, unit) (third, 0)) := by
  have encloses : Encloses first (0 * unit) (word "\x7b" first opens) [row .statement (word "x" second unit) []]
      (word "\x7d" third 0) := by
    refine ⟨⟨rfl, rfl⟩, rfl, rfl, rfl, (Int.zero_mul unit).symm, ?_⟩
    simp only [Stacked, List.cons_append, List.nil_append, List.pairwise_cons, List.forall_mem_cons]
    exact ⟨⟨after, after.trans before, List.forall_mem_nil _⟩, ⟨before, List.forall_mem_nil _⟩,
      List.forall_mem_nil _, .nil⟩
  have inside : ∀ o ∈ [row .statement (word "x" second unit) []], Formatted unit .member (0 + 1) o :=
    List.forall_mem_singleton.2 (.plain (.inr rfl) (List.forall_mem_singleton.2 (flat_word "x" second unit))
      (Int.one_mul unit).symm)
  exact .block rfl encloses inside

def condition (line column : Int) (body otherwise second : Outline) : Outline :=
  row .ifStatement (word "if" line column)
    [word "(" line (column + 3), word "a" line (column + 4), word ")" line (column + 5), body, otherwise, second]

theorem formatted_condition {unit line column : Int} {loose : Bool} {body otherwise second : Outline}
    (inside : Formatted unit (.body loose line) 0 body) (token : otherwise.label.kind = .terminal)
    (continues : Continues 0 line body.label otherwise.label)
    (alternative : Formatted unit (.body loose otherwise.label.line) 0 second) :
    Formatted unit (.construct loose) 0 (condition line column body otherwise second) := by
  let header := [word "if" line column, word "(" line (column + 3), word "a" line (column + 4),
    word ")" line (column + 5)]
  have flat : ∀ o ∈ header, o.Flat line := by
    intro o member
    simp only [header, List.mem_cons, List.not_mem_nil, or_false] at member
    rcases member with rfl | rfl | rfl | rfl <;> exact flat_word _ line _
  rw [← Int.zero_mul unit] at continues
  exact @Formatted.branching unit 0 loose _ header body otherwise second rfl rfl flat inside token continues alternative

theorem derived_condition {line column : Int} {body otherwise second : Outline} (first : body.Derived)
    (token : otherwise.Derived) (last : second.Derived) : (condition line column body otherwise second).Derived := by
  refine derived_row (by decide) ?_
  simp only [List.forall_mem_cons]
  exact ⟨derived_word .., derived_word .., derived_word .., derived_word .., first, token, last, List.forall_mem_nil _⟩

/-- A condition with a chained one as its alternative. -/
def ladder : Outline :=
  row .statement
    (condition 1 0 (braced (1, 7) (2, 4) (3, 0)) (word "else" 3 2)
      (row .statement
        (condition 3 7 (braced (3, 14) (4, 4) (5, 0)) (word "else" 5 2) (braced (5, 7) (6, 4) (7, 0))) [])) []

theorem derived_ladder : ladder.Derived := by
  refine derived_row (by decide) (List.forall_mem_singleton.2 ?_)
  refine derived_condition (derived_braced ..) (derived_word ..) (derived_row (by decide) ?_)
  exact List.forall_mem_singleton.2 (derived_condition (derived_braced ..) (derived_word ..) (derived_braced ..))

theorem formatted_ladder : Formatted 4 .member 0 ladder := by
  have direct {loose : Bool} {first second third opens : Int} (after : first < second) (before : second < third) :
      Formatted 4 (.body loose first) 0 (braced (first, opens) (second, 4) (third, 0)) :=
    .direct (formatted_braced after before) rfl
  refine .controlled rfl ?_ rfl
  refine formatted_condition (direct (by decide) (by decide)) rfl ⟨by decide, .inl ⟨rfl, rfl⟩⟩ ?_
  refine .wrapped rfl (.chained ?_) rfl
  exact formatted_condition (direct (by decide) (by decide)) rfl ⟨by decide, .inl ⟨rfl, rfl⟩⟩
    (direct (by decide) (by decide))

def ending : Outline := node ⟨.terminal, some "<EOF>", 8, 0, 8, 0, -1⟩ []

theorem tidy_ladder : (row .sourceUnit ladder [ending]).Tidy 4 := by
  refine ⟨rfl, ?_, by decide, [ladder], [ending], rfl, ?_, List.pairwise_singleton _ _, ?_⟩
  · refine derived_row (by decide) ?_
    simp only [List.forall_mem_cons]
    exact ⟨derived_ladder, .token rfl rfl, List.forall_mem_nil _⟩
  · exact List.forall_mem_singleton.2 ⟨formatted_ladder, by decide⟩
  · exact .inr ⟨ending, rfl, rfl, rfl, by decide⟩

end Outline

namespace Check.Checker

open Indentation.Tree

variable {options : Options} {root : Outline} {hidden : List Token} {tree : Tree}

/-- A significant token of a tidy outline is led by another one. -/
theorem exists_lead (tidy : root.Tidy options.step) {token : Token} (member : token ∈ root.tokens)
    (significant : token.isSignificant) :
    ∃ lead ∈ root.tokens, lead.isSignificant ∧ lead.line = token.line ∧ lead.column ≤ token.column ∧
      options.step ∣ lead.column := by
  have composite : root.label.kind ≠ .terminal := by simp [tidy.kind]
  obtain ⟨leaf, inside, found⟩ := tidy.derived.mem_tokens_iff.1 member
  have single := (tidy.derived.mem_leaves_iff.1 inside).2
  obtain rfl : Token.mk (leaf.text.getD "") leaf.line leaf.column leaf.channel leaf.type = token :=
    Option.some.inj ((if_pos single).symm.trans found)
  obtain ⟨o, listed, within⟩ := (tidy.derived.mem_leaves composite).1 inside
  obtain ⟨members, ending, children, formatted, _, last⟩ := tidy.children
  obtain ⟨derived, rising⟩ := tidy.part listed
  rw [children, List.mem_append] at listed
  rcases listed with early | late
  · obtain ⟨layout, counts⟩ := formatted o early
    obtain ⟨lead, among, line, column, multiple⟩ :=
      Outline.led_of_member layout (layout.trails derived rising) derived rising within
    have held : lead ∈ root.leaves := (tidy.derived.mem_leaves composite).2 ⟨o, by simp [children, early], among⟩
    refine ⟨_, tidy.derived.mem_tokens_iff.2 ⟨lead, held, if_pos (tidy.derived.mem_leaves_iff.1 held).2⟩, ?_, line,
      column, multiple⟩
    simp [Token.isSignificant, counts lead among]
  · rcases last with rfl | ⟨eof, rfl, kind, _, negative⟩
    · cases late
    · obtain rfl := List.mem_singleton.1 late
      rw [(derived.eq_token kind).1, Outline.leaves, List.mem_singleton] at within
      simp only [Token.isSignificant, within, Bool.and_eq_true, decide_eq_true_eq] at significant
      omega

theorem even_of_tidy (tidy : root.Tidy options.step) (quiet : ∀ token ∈ hidden, ¬ token.isSignificant)
    (flattened : root.toTree hidden = .ok tree) {line column : Int} (starts : StartsAt tree line column) :
    options.step ∣ column := by
  have tokens := tokens_toTree flattened
  obtain ⟨⟨token, listed, channel, type, level, rfl⟩, least⟩ := starts
  have significant : token.isSignificant := by simp [Token.isSignificant, channel, type]
  have inside : token ∈ root.tokens := by
    rcases List.mem_append.1 (tokens.mem_iff.1 listed) with here | comment
    · exact here
    · exact absurd significant (quiet token comment)
  obtain ⟨lead, among, counts, beside, order, multiple⟩ := exists_lead tidy inside significant
  simp only [Token.isSignificant, Bool.and_eq_true, decide_eq_true_eq] at counts
  have before : token.column ≤ lead.column :=
    least ⟨lead, tokens.mem_iff.2 (List.mem_append_left _ among), counts.1, counts.2, beside.trans level, rfl⟩
  have same : token.column = lead.column := by omega
  rwa [same]

theorem calm_of_tidy (tidy : root.Tidy options.step) (flattened : root.toTree hidden = .ok tree) {c : tree.Id}
    (listed : c ∈ (tree.node tree.root).children) : (Checker.mk options {}).Calm tree c := by
  have preorder := preorder_toTree flattened
  have shows := shows_toTree flattened
  have unit : (tree.node tree.root).kind = .sourceUnit := shows.fits.kind.trans tidy.kind
  obtain ⟨members, ending, children, formatted, stacked, last⟩ := tidy.children
  have shown := shows.forall₂
  rw [children] at shown
  obtain ⟨before, after, split, early, late⟩ := split_shown shown
  rw [split, List.mem_append] at listed
  rcases listed with first | final
  · obtain ⟨o, member, here⟩ := exists_shown early first
    have apart : before.Pairwise fun a b => (tree.node a).stopLine < (tree.node b).line := by
      refine pairwise_of_shows early stacked ?_
      intro a b first second left right order
      rwa [left.fits.stopLine, right.fits.line]
    obtain ⟨firsts, rest, row⟩ := List.append_of_mem first
    have place : (tree.node tree.root).children = firsts ++ c :: (rest ++ after) := by rw [split, row]; simp
    rw [row] at apart
    refine calm_of_formatted preorder (formatted o member).1 (tidy.part (by simp [children, member])).1 here ?_
    refine preorder.leads_of_split place ?_ ?_
    · exact lineParent?_eq_none (tree.linked (by rw [place]; simp)) (.inr unit)
    · intro s inside
      have ended := (List.pairwise_append.1 apart).2.2 s inside c List.mem_cons_self
      omega
  · obtain ⟨o, member, here⟩ := exists_shown late final
    have derived := (tidy.part (o := o) (by simp [children, member])).1
    rcases last with rfl | ⟨eof, rfl, kind, _⟩
    · cases member
    · obtain rfl := List.mem_singleton.1 member
      exact calm_of_flat preorder derived (Outline.Stands.flat ⟨kind, rfl⟩ derived) here

theorem quietAt_of_tidy (tidy : root.Tidy options.step) (flattened : root.toTree hidden = .ok tree) {i : tree.Id}
    (other : i ≠ tree.root) : (Checker.mk options {}).QuietAt tree i := by
  have preorder := preorder_toTree flattened
  rcases (preorder.inside_root i).down preorder with rfl | ⟨c, listed, inside⟩
  · exact absurd rfl other
  · exact calm_of_tidy tidy flattened listed i inside

theorem quiet_of_tidy (tidy : root.Tidy options.step) (comments : ∀ token ∈ hidden, ¬ token.isSignificant)
    (flattened : root.toTree hidden = .ok tree) : (Checker.mk options {}).Quiet tree := by
  have shows := shows_toTree flattened
  have unit : (tree.node tree.root).kind = .sourceUnit := shows.fits.kind.trans tidy.kind
  refine ⟨?_, ?_, fun _ _ _ => even_of_tidy tidy comments flattened⟩
  · intro p c member
    by_cases top : p = tree.root
    · subst top
      rw [plainBase_sourceUnit unit]
      rw [checked, if_pos unit] at member
      obtain ⟨listed, other⟩ := List.mem_filter.1 member
      obtain ⟨o, inside, shown⟩ := shows.exists_child listed
      obtain ⟨members, ending, children, formatted, _, last⟩ := tidy.children
      rw [children, List.mem_append] at inside
      rcases inside with early | late
      · rw [shown.fits.column, (formatted o early).1.column]
        simp
      · rcases last with rfl | ⟨eof, rfl, _, text, _⟩
        · cases late
        · obtain rfl := List.mem_singleton.1 late
          simp [shown.fits.text, text] at other
    · exact (quietAt_of_tidy tidy flattened top).members c member
  · intro p last braced ending
    refine (quietAt_of_tidy tidy flattened ?_).ends braced last ending
    rintro rfl
    exact Kind.ne_sourceUnit_of_hasBraces braced unit

/-- A well formatted source unit is flattened and checked, and nothing is found or corrected. -/
theorem check_tidy (options : Options) (root : Outline) (hidden : List Token) (tidy : root.Tidy options.step)
    (comments : ∀ token ∈ hidden, ¬ token.isSignificant) :
    ∃ (tree : Tree) (s : State), root.toTree hidden = .ok tree ∧
      (Checker.mk options {}).check tree {} = .ok () s ∧ s.findings = [] ∧ s.corrections = [] := by
  obtain ⟨tree, flattened⟩ := exists_toTree root hidden
  have quiet := quiet_of_tidy tidy comments flattened
  have apart : (4 : Nat) ≠ 6 := by decide
  obtain ⟨s, checked, outcome⟩ := (Checker.mk options {}).outcome_of_check (preorder_toTree flattened) apart
    fun i other => (quietAt_of_tidy tidy flattened other).kind
  exact ⟨tree, s, flattened, checked, outcome.findings_eq_nil_iff.2 quiet, outcome.corrections_of_quiet quiet⟩

theorem check_tidy_ladder :
    (Outline.row .sourceUnit .ladder [.ending]).Tidy Options.fallback.step ∧
    ∃ (tree : Tree) (s : State), (Outline.row .sourceUnit .ladder [.ending]).toTree [] = .ok tree ∧
      (Checker.mk .fallback {}).check tree {} = .ok () s ∧ s.findings = [] ∧ s.corrections = [] :=
  ⟨Outline.tidy_ladder, check_tidy .fallback _ [] Outline.tidy_ladder (List.forall_mem_nil _)⟩

end Check.Checker

end Indentation
