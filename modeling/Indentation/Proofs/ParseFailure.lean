import Indentation.Proofs.Pruning

/-! When a file cannot be parsed. Conversion hands its nodes in as drafts, and a draft that says
nowhere where it stands is refused. None is: every node says where it stands except the one
around a statement, and that one has a child, which has been placed before. The row that an
outline is laid out in is always accepted. So only a root that is not there, or that does not
belong in a tree, makes a file fail to parse. -/

namespace Indentation.Java

open Text.Utf8 (Byte)

namespace Staged

def terminal (label : Cst.Label) (source : List Byte) : Except Outline.Unplaced Outline :=
  Outline.make
    { kind := .terminal
      text := some (textOf source label.span)
      line := some label.line
      column := some label.span.column
      type := label.symbol } []

/-- The line a node ends on is that of its last child, if anything is left of its children. -/
def composite (label : Cst.Label) (config : Config) (children : List Outline) : Except Outline.Unplaced Outline :=
  let draft : Outline.Draft :=
    { kind := config.kind label.type, line := some label.line, column := some label.span.column }
  if children.isEmpty then Outline.make { draft with text := some "", stopLine := some label.line } []
  else Outline.make draft children

def statement (child : Outline) : Except Outline.Unplaced Outline := Outline.make { kind := .statement } [child]

def adopted (config : Config) (parent type : String) (child : Outline) : Except Outline.Unplaced (List Outline) :=
  if config.splices parent type then pure child.children
  else if config.isStatement parent type then return [← statement child]
  else return [child]

variable (config : Config) (source : List Byte)

mutual

/-- Conversion in which any node may be refused. -/
def convert : Cst → Except Outline.Unplaced (List Token × Option Outline)
  | .node label children => do
    if label.isExtra then return ([label.hiddenToken source], none)
    if label.isMissing then return ([], none)
    if children.isEmpty then return ([], some (← terminal label source))
    let (hidden, kept) ← convertAll label.type children
    return (hidden, some (← composite label config kept))

def convertAll (parent : String) : List Cst → Except Outline.Unplaced (List Token × List Outline)
  | [] => return ([], [])
  | child :: rest => do
    let (hidden, outline) ← convert child
    let parts ← match outline with
      | some o => adopted config parent child.label.type o
      | none => pure []
    let (others, kept) ← convertAll parent rest
    return (hidden ++ others, parts ++ kept)

end

theorem composite_eq (label : Cst.Label) (children : List Outline) :
    composite label config children = .ok (label.composite config children) := by
  unfold composite Cst.Label.composite
  dsimp only
  split
  next => rfl
  next => rfl

theorem adopted_eq (parent type : String) (child : Outline) :
    adopted config parent type child = .ok (Java.adopted config parent type child) := by
  unfold adopted Java.adopted
  split
  next => rfl
  next =>
    split
    next => rfl
    next => rfl

mutual

theorem convert_eq (c : Cst) : convert config source c = .ok (Java.convert config source c) := by
  cases c with
  | node label children =>
    rw [convert, Java.convert]
    split
    next => rfl
    next =>
      split
      next => rfl
      next =>
        split
        next => rfl
        next =>
          rw [convertAll_eq label.type children]
          dsimp only [bind, Except.bind]
          rw [composite_eq]
          rfl

theorem convertAll_eq (parent : String) (cs : List Cst) :
    convertAll config source parent cs = .ok (Java.convertAll config source parent cs) := by
  cases cs with
  | nil =>
    rw [convertAll, Java.convertAll]
    rfl
  | cons child rest =>
    rw [convertAll, Java.convertAll, convert_eq child, convertAll_eq parent rest]
    cases Java.convert config source child with
    | mk hidden outline =>
      cases outline with
      | none => rfl
      | some o =>
        dsimp only [bind, Except.bind]
        rw [adopted_eq]
        rfl

end

end Staged

/-- The parser gave no root, or one that does not belong in a tree. -/
inductive Rootless : Option Cst → Prop where
  | absent : Rootless none
  | extra {root : Cst} (comment : root.label.isExtra = true) : Rootless (some root)
  | missing {root : Cst} (recovered : root.label.isMissing = true) : Rootless (some root)

theorem rootless_some_iff {root : Cst} : Rootless (some root) ↔ root.label.isLeftOut = true := by
  rw [Cst.Label.isLeftOut, Bool.or_eq_true]
  constructor
  · intro rootless
    cases rootless with
    | extra comment => exact .inl comment
    | missing recovered => exact .inr recovered
  · intro out
    rcases out with comment | recovered
    · exact .extra comment
    · exact .missing recovered

section Outcome

variable (config : Config) (path content : String) {concrete : Option Cst}

theorem parse_of_rootless (rootless : Rootless concrete) :
    (parse config ⟨path, some content, concrete⟩).2 =
      .error (.unparsed ("Failed to parse Java file: " ++ ("Failed to parse Java file: " ++ path))) := by
  cases concrete with
  | none => rfl
  | some root =>
    obtain ⟨label, children⟩ := root
    have out : label.isLeftOut = true := rootless_some_iff.1 rootless
    unfold parse treeOf
    dsimp only
    rw [← bytesOf, convert_of_leftOut config (bytesOf content) children out]
    rfl

theorem exists_parse (rooted : ¬ Rootless concrete) :
    ∃ tree, (parse config ⟨path, some content, concrete⟩).2 = .ok tree := by
  cases concrete with
  | none => exact absurd .absent rooted
  | some root =>
    rw [rootless_some_iff, Bool.not_eq_true] at rooted
    obtain ⟨o, converted⟩ := exists_convert config (bytesOf content) rooted
    obtain ⟨tree, flattened⟩ := Tree.exists_toTree o (convert config (bytesOf content) root).1
    exact ⟨tree, parse_eq_ok_iff.2 ⟨o, converted, flattened⟩⟩

end Outcome

/-- No node that conversion builds is refused, whatever is left out, lifted or wrapped; a file
fails to parse just if it has no usable root, and then says so; every other file has a tree.
Texts hold no lone surrogates, so that every content has its bytes. -/
theorem parse_fails_iff (config : Config) (path content : String) (concrete : Option Cst) :
    (∀ c, Staged.convert config (bytesOf content) c = .ok (convert config (bytesOf content) c)) ∧
    ((∃ failure, (parse config ⟨path, some content, concrete⟩).2 = .error failure) ↔ Rootless concrete) ∧
    ((∃ tree, (parse config ⟨path, some content, concrete⟩).2 = .ok tree) ↔ ¬ Rootless concrete) ∧
    ∀ failure, (parse config ⟨path, some content, concrete⟩).2 = .error failure →
      failure.type = "ValueError" ∧ ∃ cause, failure.message = "Failed to parse Java file: " ++ cause := by
  refine ⟨Staged.convert_eq config (bytesOf content), ?_⟩
  by_cases rootless : Rootless concrete
  · rw [parse_of_rootless config path content rootless]
    refine ⟨⟨fun _ => rootless, fun _ => ⟨_, rfl⟩⟩, ⟨nofun, fun rooted => absurd rootless rooted⟩, ?_⟩
    intro failure same
    cases same
    exact ⟨rfl, _, rfl⟩
  · obtain ⟨tree, parsed⟩ := exists_parse config path content rootless
    rw [parsed]
    exact ⟨⟨nofun, fun lacks => absurd lacks rootless⟩, ⟨fun _ => rootless, fun _ => ⟨tree, rfl⟩⟩, nofun⟩

/-- A comment alone is no file; a file with comments and recovered parts has a tree. -/
theorem parse_fails_iff_comment :
    (∃ failure,
      (parse nested ⟨"A.java", some mendedText,
        some (.node ⟨"comment", 2, true, false, false, ⟨0, 0, 0, 2⟩⟩ [])⟩).2 = .error failure ∧
      failure.type = "ValueError" ∧ ∃ cause, failure.message = "Failed to parse Java file: " ++ cause) ∧
    ∃ tree, (parse nested ⟨"A.java", some mendedText, some mended⟩).2 = .ok tree := by
  obtain ⟨_, fails, _, reports⟩ := parse_fails_iff nested "A.java" mendedText
    (some (.node ⟨"comment", 2, true, false, false, ⟨0, 0, 0, 2⟩⟩ []))
  obtain ⟨_, _, succeeds, _⟩ := parse_fails_iff nested "A.java" mendedText (some mended)
  obtain ⟨failure, failed⟩ := fails.2 (.extra rfl)
  have rooted : ¬ Rootless (some mended) := by
    rw [rootless_some_iff]
    decide
  exact ⟨⟨failure, failed, reports failure failed⟩, succeeds.2 rooted⟩

end Indentation.Java
