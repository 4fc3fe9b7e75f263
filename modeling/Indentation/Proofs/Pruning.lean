import Indentation.Proofs.CheckVisits
import Indentation.Proofs.Relaying
import Indentation.Proofs.Transcription

/-! Comments, and what error recovery put in, cannot influence a check. Taking such nodes out
of a concrete tree leaves its outline as it is, as long as no node loses all its children. The
trees then have the same nodes, and differ only in tokens on the hidden channel. A check looks
at tokens where they are significant and nowhere else, so both checks end in one state. -/

namespace Indentation

namespace Tree

/-- The same layout among other tokens. -/
abbrev retokened (tree : Tree) (others : List Token) : Tree := tree.relaid id (fun _ column => column) others

theorem retokened_eq (tree : Tree) (others : List Token) : tree.retokened others = { tree with tokens := others } := by
  have same : (fun i => (tree.node i).relaid id fun _ column => column) = tree.node := by
    funext i
    have kept : Token.relaid id (fun _ column => column) = id := rfl
    rw [Node.relaid, kept, Option.map_id]
    rfl
  simp only [retokened, relaid, same]

variable {tree : Tree} (others : List Token)

theorem correctionWithin_retokened (table : Corrections) (line : Int) (fuel : Nat) (i : tree.Id) :
    (tree.retokened others).correctionWithin table line fuel i = tree.correctionWithin table line fuel i := by
  induction fuel generalizing i with
  | zero => rfl
  | succ fuel ih =>
    unfold correctionWithin
    cases Corrections.of? table i.val with
    | some correction => rfl
    | none =>
      dsimp only [Node.relaid]
      cases (tree.node i).parent with
      | none => rfl
      | some p => exact if_congr Iff.rfl (ih p) rfl

theorem indentOf_retokened (table : Corrections) (i : tree.Id) :
    (tree.retokened others).indentOf table i = tree.indentOf table i := by
  unfold indentOf
  dsimp only [Node.relaid, id]
  rw [correctionWithin_retokened]

/-- The same visit among other tokens. -/
def Visit.retokened (visit : tree.Visit) : (tree.retokened others).Visit := ⟨visit.phase, visit.node⟩

theorem visits_retokened (levels : Nat) (i : tree.Id) :
    (tree.retokened others).visits levels i = (tree.visits levels i).map (Visit.retokened others) := by
  induction levels generalizing i with
  | zero => rfl
  | succ levels ih =>
    rw [visits, visits, List.map_cons, List.map_append, List.map_flatMap]
    exact congrArg (fun below => _ :: (below ++ _)) (List.flatMap_congr fun c _ => ih c)

/-- An accepted row is accepted with any tokens, and they make no difference to the nodes. -/
theorem ofEntries_retokened {entries : List Entry} {tokens : Option (List Token)}
    (accepted : ofEntries entries tokens = .ok tree) :
    ofEntries entries (some others) = .ok { tree with tokens := others.mergeSort Token.before } := by
  unfold ofEntries at accepted ⊢
  dsimp only at accepted ⊢
  split at accepted
  next => cases accepted
  next flawless =>
    cases accepted
    rfl

theorem walk_retokened : (tree.retokened others).walk = tree.walk.map (Visit.retokened others) := by
  rw [walk_eq_visits, walk_eq_visits]
  exact visits_retokened others tree.size tree.root

end Tree

namespace Check.Checker

variable (checker : Checker) {tree : Tree}

section Nodes

variable (others : List Token) (i : tree.Id)

theorem checkMembers_retokened (anchor : tree.Id) (s : State) :
    checker.checkMembers (tree.retokened others) anchor i s = checker.checkMembers tree anchor i s := by
  unfold checkMembers
  dsimp only
  rw [Tree.members_relaid, Tree.indentOf_retokened]
  rfl

theorem checkEnd_retokened (anchor last : tree.Id) (s : State) :
    checkEnd (tree.retokened others) anchor last s = checkEnd tree anchor last s := by
  unfold checkEnd
  dsimp only [Node.relaid, id]
  rw [Tree.indentOf_retokened]

theorem checkBraces_retokened : checker.checkBraces (tree.retokened others) i = checker.checkBraces tree i := by
  have braces : (tree.retokened others).braces? i = tree.braces? i := rfl
  unfold checkBraces
  rw [braces, Tree.anchor_relaid Function.injective_id]
  cases tree.braces? i with
  | none => rfl
  | some ends =>
    cases tree.anchor i with
    | error lost => rfl
    | ok anchor =>
      simp only [checkMembers_retokened, checkEnd_retokened]
      rfl

theorem requiredBody_retokened (s : State) :
    checker.requiredBody (tree.retokened others) s i = checker.requiredBody tree s i := by
  unfold requiredBody
  dsimp only [Node.relaid]
  cases (tree.node i).parent with
  | none => rfl
  | some parent => exact congrArg (· + checker.options.step) (Tree.indentOf_retokened others s.corrections parent)

theorem checkBody_retokened (s : State) (position : Int) :
    checker.checkBody (tree.retokened others) i s position = checker.checkBody tree i s position := by
  have child : child? (tree.retokened others) i position = child? tree i position := rfl
  unfold checkBody
  rw [child, requiredBody_retokened]
  cases child? tree i position with
  | none => rfl
  | some body =>
    dsimp only
    rw [controlledKind_relaid]
    rfl

theorem checkBodies_retokened (positions : List Int) :
    checker.checkBodies (tree.retokened others) i positions = checker.checkBodies tree i positions := by
  funext s
  unfold checkBodies
  rw [funext₂ (checker.checkBody_retokened others i)]

end Nodes

section Tokens

variable {others : List Token} (same : others.filter Token.isSignificant = tree.tokens.filter Token.isSignificant)
include same

theorem coveredLines_retokened : coveredLines (tree.retokened others) = coveredLines tree := by
  unfold coveredLines
  rw [same]

theorem startOf_retokened (line : Int) : startOf (tree.retokened others) line = startOf tree line := by
  have split : ∀ tokens : List Token, tokens.filter (fun t => t.isSignificant && t.line = line) =
      (tokens.filter Token.isSignificant).filter fun t => t.line = line := by
    intro tokens
    rw [List.filter_filter]
    apply List.filter_congr
    intro t _
    exact Bool.and_comm _ _
  unfold startOf
  rw [split, split, same]

theorem checkMultiples_retokened (skipped : List Int) (s : State) :
    checker.checkMultiples (tree.retokened others) skipped s = checker.checkMultiples tree skipped s := by
  have uneven : checker.unevenLine? (tree.retokened others) = checker.unevenLine? tree := by
    funext line
    unfold unevenLine?
    rw [startOf_retokened same]
  unfold checkMultiples
  rw [coveredLines_retokened same, uneven]

theorem apply_retokened (rule : Rule) (i : tree.Id) :
    rule.apply checker (tree.retokened others) i = rule.apply checker tree i := by
  cases rule with
  | braces => exact checker.checkBraces_retokened others i
  | ifBodies => exact congrArg modify (checker.checkBodies_retokened others i _)
  | whileBody => exact congrArg modify (checker.checkBodies_retokened others i _)
  | doWhileBody => exact congrArg modify (checker.checkBodies_retokened others i _)
  | forBody => exact congrArg modify (checker.checkBodies_retokened others i _)
  | topLevel => rfl
  | multiples => exact congrArg modify (funext fun s => checker.checkMultiples_retokened same s.flaggedLines s)

theorem visit_retokened (visit : tree.Visit) :
    checker.visit (tree.retokened others) (visit.retokened others) = checker.visit tree visit := by
  have called : Rule.of? (visit.retokened others).phase ((tree.retokened others).node (visit.retokened others).node).kind =
      Rule.of? visit.phase (tree.node visit.node).kind := rfl
  unfold Checker.visit
  rw [called]
  cases Rule.of? visit.phase (tree.node visit.node).kind with
  | none => rfl
  | some rule => exact checker.apply_retokened same rule visit.node

/-- A check looks only at the significant ones among the tokens. -/
theorem check_retokened (s : State) : checker.check { tree with tokens := others } s = checker.check tree s := by
  have after : ∀ s (visit : tree.Visit),
      checker.after (tree.retokened others) s (visit.retokened others) = checker.after tree s visit := by
    intro s visit
    unfold Checker.after
    rw [checker.visit_retokened same]
  rw [← tree.retokened_eq others, check_eq, check_eq, Tree.walk_retokened, List.foldl_map, funext₂ after]

end Tokens

end Check.Checker

namespace Java

open Text.Utf8 (Byte)

namespace Cst

mutual

/-- Takes out nodes that are left out anyway, with all below them. A node that had children
keeps one of them; whether there are syntax errors below it may change. -/
inductive Prunes : Cst → Cst → Prop where
  | node {label : Label} {flag : Bool} {children rest : List Cst} (below : PrunesAll children rest)
      (remains : children ≠ [] → rest ≠ []) : Prunes (.node label children) (.node { label with hasError := flag } rest)

inductive PrunesAll : List Cst → List Cst → Prop where
  | nil : PrunesAll [] []
  | keep {c d : Cst} {cs ds : List Cst} (first : Prunes c d) (later : PrunesAll cs ds) : PrunesAll (c :: cs) (d :: ds)
  | drop {c : Cst} {cs ds : List Cst} (out : c.label.isLeftOut = true) (later : PrunesAll cs ds) : PrunesAll (c :: cs) ds

end

mutual

/-- Nothing need be taken out. -/
theorem Prunes.refl (c : Cst) : c.Prunes c := by
  cases c with
  | node label children => exact .node (PrunesAll.refl children) id

theorem PrunesAll.refl (cs : List Cst) : PrunesAll cs cs := by
  cases cs with
  | nil => exact .nil
  | cons c rest => exact .keep (Prunes.refl c) (PrunesAll.refl rest)

end

theorem Prunes.type_eq {c d : Cst} (prunes : c.Prunes d) : d.label.type = c.label.type := by
  cases prunes
  rfl

end Cst

section Pruned

variable {config : Config} {source : List Byte}

variable (config source) in
theorem exists_convert {root : Cst} (belongs : root.label.isLeftOut = false) :
    ∃ o, (convert config source root).2 = some o := by
  cases root with
  | node label children =>
    rcases convert_cases config source label children with ⟨out, _⟩ | ⟨_, _, made⟩ | ⟨_, _, made⟩
    · cases out.symm.trans belongs
    · exact ⟨_, congrArg Prod.snd made⟩
    · exact ⟨_, congrArg Prod.snd made⟩

/-- Conversion does not ask for syntax errors. -/
theorem convert_hasError (label : Cst.Label) (flag : Bool) (children : List Cst) :
    convert config source (.node { label with hasError := flag } children) =
      convert config source (.node label children) := by
  rw [convert, convert]
  rfl

mutual

theorem convert_pruned {d : Cst} (c : Cst) (prunes : c.Prunes d) :
    (convert config source d).2 = (convert config source c).2 := by
  cases c with
  | node label children =>
    cases prunes with
    | @node _ flag _ rest below remains =>
      rw [convert_hasError]
      rcases convert_cases config source label children with ⟨out, made⟩ | ⟨_, rfl, _⟩ | ⟨belongs, nonempty, made⟩
      · rw [made, convert_of_leftOut config source rest out]
      · cases below
        rfl
      · -- A node with nothing left below it would be read as a leaf.
        rw [made, convert_of_composite config source belongs (remains nonempty),
          convertAll_pruned label.type children below]

theorem convertAll_pruned {ds : List Cst} (parent : String) (cs : List Cst) (prunes : Cst.PrunesAll cs ds) :
    (convertAll config source parent ds).2 = (convertAll config source parent cs).2 := by
  cases cs with
  | nil =>
    cases prunes
    rfl
  | cons c rest =>
    cases prunes with
    | keep first later =>
      rw [convertAll_cons, convertAll_cons, first.type_eq, convert_pruned c first, convertAll_pruned parent rest later]
    | drop out later =>
      cases c with
      | node label children =>
        replace out : label.isLeftOut = true := out
        rw [convertAll_cons, convert_of_leftOut config source children out, convertAll_pruned parent rest later]
        rfl

end

/-- Off the hidden channel are the terminals, in source order. -/
theorem sorted_visible {root : Cst} {o : Outline} {tree : Tree} (converted : (convert config source root).2 = some o)
    (flattened : o.toTree (convert config source root).1 = .ok tree) :
    Token.Sorted (o.labels.filterMap Outline.Label.token?)
      (tree.tokens.filter fun t => t.channel ≠ Token.hiddenChannel) := by
  have order := (sorted_toTree flattened).filter fun t => t.channel ≠ Token.hiddenChannel
  have terminals : (o.labels.filterMap Outline.Label.token?).filter (fun t => t.channel ≠ Token.hiddenChannel) =
      o.labels.filterMap Outline.Label.token? := by
    rw [List.filter_eq_self]
    intro t member
    simp [channel_of_terminal converted member, Token.hiddenChannel]
  have comments : (convert config source root).1.filter (fun t => t.channel ≠ Token.hiddenChannel) = [] := by
    rw [List.filter_eq_nil_iff]
    intro t member
    simp [channel_of_comment member]
  rwa [List.filter_append, terminals, comments, List.append_nil] at order

theorem exists_retokened {root pruned : Cst} {o : Outline} {tree : Tree}
    (converted : (convert config source root).2 = some o) (same : (convert config source pruned).2 = some o)
    (flattened : o.toTree (convert config source root).1 = .ok tree) :
    ∃ others, o.toTree (convert config source pruned).1 = .ok { tree with tokens := others } ∧
      others.filter (fun t => t.channel ≠ Token.hiddenChannel) =
        tree.tokens.filter fun t => t.channel ≠ Token.hiddenChannel := by
  have relaid : o.toTree (convert config source pruned).1 = .ok { tree with tokens := _ } :=
    Tree.ofEntries_retokened _ flattened
  exact ⟨_, relaid, (sorted_visible same relaid).unique (sorted_visible converted flattened)⟩

theorem significant_of_visible {first second : List Token}
    (same : first.filter (fun t => t.channel ≠ Token.hiddenChannel) =
      second.filter fun t => t.channel ≠ Token.hiddenChannel) :
    first.filter Token.isSignificant = second.filter Token.isSignificant := by
  have visible : ∀ tokens : List Token, tokens.filter Token.isSignificant =
      (tokens.filter fun t => t.channel ≠ Token.hiddenChannel).filter Token.isSignificant := by
    intro tokens
    rw [List.filter_filter]
    apply List.filter_congr
    intro t _
    by_cases significant : t.isSignificant = true
    · have channel : t.channel = 0 := by simpa using (Bool.and_eq_true_iff.1 significant).1
      simp [significant, channel, Token.hiddenChannel]
    · simp [significant]
  rw [visible first, same, ← visible second]

end Pruned

/-- Taking comments and what error recovery put in out of a concrete tree. Both trees parse; the
results have the same nodes and differ in hidden tokens only; and a check runs to its end on
both, in one and the same state. -/
theorem parse_pruned (config : Config) (path content : String) {root pruned : Cst}
    (belongs : root.label.isLeftOut = false) (prunes : root.Prunes pruned) (checker : Check.Checker) :
    ∃ tree others s,
      (parse config ⟨path, some content, some root⟩).2 = .ok tree ∧
      (parse config ⟨path, some content, some pruned⟩).2 = .ok { tree with tokens := others } ∧
      others.filter (fun t => t.channel ≠ Token.hiddenChannel) =
        tree.tokens.filter (fun t => t.channel ≠ Token.hiddenChannel) ∧
      checker.check tree {} = .ok () s ∧
      checker.check { tree with tokens := others } {} = .ok () s := by
  obtain ⟨o, converted⟩ := exists_convert config (bytesOf content) belongs
  have same := (convert_pruned root prunes).trans converted
  obtain ⟨tree, flattened⟩ := Tree.exists_toTree o (convert config (bytesOf content) root).1
  obtain ⟨others, relaid, visible⟩ := exists_retokened converted same flattened
  have checked := checker.check_eq tree {}
  refine ⟨tree, others, _, parse_eq_ok_iff.2 ⟨o, converted, flattened⟩, parse_eq_ok_iff.2 ⟨o, same, relaid⟩, visible,
    checked, ?_⟩
  rw [checker.check_retokened (significant_of_visible visible), checked]

/-- The body without two of its comments and without what error recovery put in. -/
def bare : Cst :=
  .node ⟨"program", 1, false, false, false, ⟨0, 0, 0, 13⟩⟩
    [.node ⟨"body", 4, false, false, false, ⟨1, 0, 3, 13⟩⟩
      [.node ⟨"open", 5, false, false, false, ⟨1, 0, 3, 4⟩⟩ [],
        .node ⟨"members", 6, false, false, false, ⟨1, 1, 4, 9⟩⟩
          [.node ⟨"group", 7, false, false, false, ⟨1, 1, 4, 7⟩⟩ [.node ⟨"name", 8, false, false, false, ⟨1, 1, 4, 6⟩⟩ []],
            .node ⟨"name", 8, false, false, false, ⟨1, 4, 7, 9⟩⟩ []],
        .node ⟨"gap", 9, false, false, false, ⟨1, 6, 9, 10⟩⟩ [],
        .node ⟨"call", 10, false, false, false, ⟨1, 7, 10, 11⟩⟩ [.node ⟨"name", 8, false, false, false, ⟨1, 7, 10, 11⟩⟩ []],
        .node ⟨"void", 11, false, false, false, ⟨1, 8, 11, 12⟩⟩ [.node ⟨"comment", 2, true, false, false, ⟨1, 8, 11, 12⟩⟩ []],
        .node ⟨"close", 12, false, false, false, ⟨1, 9, 12, 13⟩⟩ []]]

theorem mended_prunes_bare : mended.Prunes bare := by
  refine .node (.drop rfl (.keep (.node ?_ nofun) .nil)) nofun
  refine .keep (.refl _) (.keep (.node ?_ nofun) (.keep (.refl _) (.drop rfl (.refl _))))
  exact .keep (.node (.keep (.refl _) (.drop rfl .nil)) nofun) (.refl _)

theorem parse_pruned_bare :
    mended.label.isLeftOut = false ∧ mended.Prunes bare ∧
      mended.comments.map (·.span.column) = [0, 3, 8] ∧ bare.comments.map (·.span.column) = [8] ∧
      ∃ tree others s,
        (parse nested ⟨"A.java", some mendedText, some mended⟩).2 = .ok tree ∧
        (parse nested ⟨"A.java", some mendedText, some bare⟩).2 = .ok { tree with tokens := others } ∧
        (Check.Checker.mk .fallback nested.profile).check tree {} = .ok () s ∧
        (Check.Checker.mk .fallback nested.profile).check { tree with tokens := others } {} = .ok () s := by
  obtain ⟨tree, others, s, parsed, relaid, _, checked, also⟩ :=
    parse_pruned nested "A.java" mendedText rfl mended_prunes_bare ⟨.fallback, nested.profile⟩
  exact ⟨rfl, mended_prunes_bare, by decide, by decide, tree, others, s, parsed, relaid, checked, also⟩

end Java
end Indentation
