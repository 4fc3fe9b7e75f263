import Indentation.Java.FrontEnd
import Indentation.Proofs.Conversion
import Indentation.Proofs.Faithful
import Indentation.Proofs.Reconstruction
import Mathlib.Data.List.Sort

/-! The tree of a parsed file holds what its concrete tree says. The terminals of the tree, in
the order of their numbers, are the leaves that belong to the tree from left to right; the
tokens on the hidden channel are the comments; and every node has the text of the terminals
at or below it. -/

namespace Indentation

namespace Tree

variable {tree : Tree}

mutual

/-- The nodes at and below a node carry the labels of the outline that it shows, in order. -/
theorem Shows.carried {i : tree.Id} (o : Outline) (shows : Shows tree i o) :
    ∃ ids : List tree.Id, ids.map Fin.val = List.range' i.val o.size ∧
      List.Forall₂ (fun (label : Outline.Label) j => label.Fits (tree.node j)) o.labels ids := by
  cases o with
  | node label children =>
    cases shows with
    | node fits below =>
      obtain ⟨ids, numbered, carried⟩ := ShowsAll.carried children below
      refine ⟨i :: ids, ?_, .cons fits carried⟩
      rw [List.map_cons, numbered, Outline.size, Nat.add_comm 1, List.range'_succ]

theorem ShowsAll.carried {number : Nat} {roots : List tree.Id} (os : List Outline)
    (shows : ShowsAll tree number roots os) :
    ∃ ids : List tree.Id, ids.map Fin.val = List.range' number (Outline.sizeAll os) ∧
      List.Forall₂ (fun (label : Outline.Label) j => label.Fits (tree.node j)) (Outline.labelsAll os) ids := by
  cases os with
  | nil => exact ⟨[], rfl, .nil⟩
  | cons o rest =>
    cases shows with
    | cons here first later =>
      obtain ⟨ids, numbered, carried⟩ := Shows.carried o first
      obtain ⟨others, following, also⟩ := ShowsAll.carried rest later
      refine ⟨ids ++ others, ?_, List.rel_append carried also⟩
      rw [List.map_append, numbered, following, here, Outline.sizeAll, List.range'_append_1]

end

/-- The terminals at or below a node are those of the outline that it shows. -/
theorem Shows.exists_terminals (preorder : Preorder tree) {i : tree.Id} {o : Outline} (shows : Shows tree i o) :
    ∃ below : List tree.Id, below.Pairwise (· < ·) ∧
      (∀ j, j ∈ below ↔ Inside tree i j ∧ (tree.node j).kind = .terminal) ∧
      List.Forall₂ (fun (label : Outline.Label) j => label.Fits (tree.node j)) o.terminals below := by
  obtain ⟨ids, numbered, carried⟩ := shows.carried o
  have rising : ids.Pairwise (· < ·) := by
    have numbers : (ids.map Fin.val).Pairwise (· < ·) := by
      rw [numbered]
      exact List.pairwise_lt_range'
    exact (List.pairwise_map.1 numbers).imp Fin.lt_def.2
  have inside : ∀ j, j ∈ ids ↔ Inside tree i j := by
    intro j
    rw [shows.inside_iff preorder o, ← List.mem_map_of_injective Fin.val_injective, numbered, List.mem_range'_1]
  refine ⟨ids.filter fun j => (tree.node j).kind = .terminal, rising.filter _, ?_, ?_⟩
  · intro j
    rw [List.mem_filter, inside, decide_eq_true_eq]
  · refine List.rel_filter ?_ carried
    intro label j fits
    simp only [fits.kind]

end Tree

namespace Java

open Text.Utf8 (Byte)

def bytesOf (content : String) : List Byte := Text.Utf8.encode content.toList

/-- A file parses into a tree just if its concrete tree converts into an outline, which is then flattened. -/
theorem parse_eq_ok_iff {config : Config} {path content : String} {root : Cst} {tree : Tree} :
    (parse config ⟨path, some content, some root⟩).2 = .ok tree ↔
      ∃ o, (convert config (bytesOf content) root).2 = some o ∧
        o.toTree (convert config (bytesOf content) root).1 = .ok tree := by
  have outcome : (parse config ⟨path, some content, some root⟩).2 = .ok tree ↔
      treeOf config path content (some root) = .ok tree := by
    unfold parse
    dsimp only
    cases treeOf config path content (some root) with
    | ok made => exact ⟨fun same => by cases same; rfl, fun same => by cases same; rfl⟩
    | error cause => exact ⟨nofun, nofun⟩
  rw [outcome, treeOf, ← bytesOf]
  cases converted : convert config (bytesOf content) root with
  | mk hidden made =>
    cases made with
    | none => exact ⟨nofun, nofun⟩
    | some o =>
      dsimp only
      cases flattened : o.toTree hidden with
      | ok made => simp [Except.mapError, flattened]
      | error flaw => simp [Except.mapError, flattened]

/-- A terminal with the text, the place and the symbol of a leaf. -/
structure Cst.Label.WrittenAs {n : Nat} (label : Cst.Label) (source : List Byte) (node : Node n) : Prop where
  kind : node.kind = .terminal
  text : node.text = textOf source label.span
  line : node.line = label.span.row + 1
  column : node.column = label.span.column
  token : node.token =
    some ⟨textOf source label.span, label.span.row + 1, label.span.column, 0, label.symbol⟩

theorem Cst.Label.writtenAs_of_fits {n : Nat} {label : Cst.Label} {source : List Byte} {node : Node n}
    (fits : (label.terminal source).label.Fits node) : label.WrittenAs source node :=
  ⟨fits.kind, fits.text, fits.line, fits.column, fits.token⟩

theorem channel_of_token {label : Outline.Label} {t : Token} (made : label.token? = some t) : t.channel = label.channel := by
  unfold Outline.Label.token? at made
  split at made
  next =>
    cases made
    rfl
  next => cases made

section Parsing

variable {config : Config} {source : List Byte} {root : Cst} {o : Outline} {tree : Tree}

theorem channel_of_comment {t : Token} (member : t ∈ (convert config source root).1) : t.channel = Token.hiddenChannel := by
  rw [hidden_convert source List.all_nil root] at member
  obtain ⟨place, _, rfl⟩ := List.mem_map.1 member
  rfl

theorem channel_of_terminal (converted : (convert config source root).2 = some o) {t : Token}
    (member : t ∈ o.labels.filterMap Outline.Label.token?) : t.channel = 0 := by
  obtain ⟨label, inside, made⟩ := List.mem_filterMap.1 member
  rw [channel_of_token made]
  exact (made_convert root converted).channel label inside

theorem sorted_toTree {hidden : List Token} (flattened : o.toTree hidden = .ok tree) :
    Token.Sorted (o.labels.filterMap Outline.Label.token? ++ hidden) tree.tokens := by
  rw [(Tree.holds_of_accepted flattened).tokens, ← Outline.tokens_eq]
  exact Token.sorted_mergeSort _

/-- On the hidden channel are the comments, in source order. -/
theorem sorted_hidden (converted : (convert config source root).2 = some o)
    (flattened : o.toTree (convert config source root).1 = .ok tree) :
    Token.Sorted (convert config source root).1 (tree.tokens.filter fun t => t.channel = Token.hiddenChannel) := by
  have order := (sorted_toTree flattened).filter fun t => t.channel = Token.hiddenChannel
  have visible : (o.labels.filterMap Outline.Label.token?).filter (fun t => t.channel = Token.hiddenChannel) = [] := by
    rw [List.filter_eq_nil_iff]
    intro t member
    simp [channel_of_terminal converted member, Token.hiddenChannel]
  have comments : (convert config source root).1.filter (fun t => t.channel = Token.hiddenChannel) =
      (convert config source root).1 := by
    rw [List.filter_eq_self]
    intro t member
    simp [channel_of_comment member]
  rwa [List.filter_append, visible, comments, List.nil_append] at order

end Parsing

theorem forall₂_terminals {config : Config} {source : List Byte} {root : Cst} {o : Outline} {tree : Tree}
    (plain : ∀ type, config.kind type ≠ .terminal) (converted : (convert config source root).2 = some o)
    (flattened : o.toTree (convert config source root).1 = .ok tree) :
    List.Forall₂ (fun leaf i => leaf.WrittenAs source (tree.node i)) (root.keptLeaves config)
      ((List.finRange tree.size).filter fun i => (tree.node i).kind = .terminal) := by
  have preorder := Tree.preorder_toTree flattened
  obtain ⟨below, rising, members, carried⟩ := (Tree.shows_toTree flattened).exists_terminals preorder
  have all : below = (List.finRange tree.size).filter fun i => (tree.node i).kind = .terminal := by
    refine rising.eq_of_mem_iff ((List.pairwise_lt_finRange _).filter _) ?_
    intro j
    rw [members, List.mem_filter, decide_eq_true_eq]
    exact and_congr_left fun _ => iff_of_true (preorder.inside_root j) (List.mem_finRange j)
  rw [← all]
  rw [terminals_convert source plain converted, written, List.forall₂_map_left_iff] at carried
  rw [Cst.keptLeaves, List.forall₂_map_left_iff]
  exact carried.imp fun _ _ => Cst.Label.writtenAs_of_fits

theorem exists_spelling {config : Config} {source : List Byte} {root : Cst} {o : Outline} {tree : Tree}
    (plain : ∀ type, config.kind type ≠ .terminal) (converted : (convert config source root).2 = some o)
    (flattened : o.toTree (convert config source root).1 = .ok tree) (i : tree.Id) :
    ∃ below : List tree.Id, below.Pairwise (· < ·) ∧
      (∀ j, j ∈ below ↔ Tree.Inside tree i j ∧ (tree.node j).kind = .terminal) ∧
      (tree.node i).text = String.join (below.map fun j => (tree.node j).text) := by
  obtain ⟨_, part, _, shows, inside⟩ := Tree.exists_part flattened i
  obtain ⟨below, rising, members, carried⟩ := shows.exists_terminals (Tree.preorder_toTree flattened)
  refine ⟨below, rising, members, ?_⟩
  have spelled := (((made_convert root converted).spelled plain).part inside).text_eq
  have texts : part.terminals.map (fun label => label.text.getD "") = below.map fun j => (tree.node j).text := by
    have same : List.Forall₂ (· = ·) (part.terminals.map fun label => label.text.getD "")
        (below.map fun j => (tree.node j).text) := by
      rw [List.forall₂_map_left_iff, List.forall₂_map_right_iff]
      exact carried.imp fun _ _ fits => fits.text.symm
    exact List.forall₂_eq_eq_eq ▸ same
  rw [shows.fits.text, spelled, Outline.spelling, texts]

/-- A file that parses. The terminals are the leaves that belong to the tree, in order and with
their texts, places and symbols; on the hidden channel are the comments, each once and with its
text, place and symbol; and the text of every node is that of the terminals at or below it. -/
theorem parse_keeps_tokens {config : Config} {path content : String} {root : Cst} {tree : Tree}
    (plain : ∀ type, config.kind type ≠ .terminal)
    (parsed : (parse config ⟨path, some content, some root⟩).2 = .ok tree) :
    List.Forall₂ (fun leaf i => leaf.WrittenAs (bytesOf content) (tree.node i)) (root.keptLeaves config)
      ((List.finRange tree.size).filter fun i => (tree.node i).kind = .terminal) ∧
    Token.Sorted
      (root.comments.map fun comment =>
        { text := textOf (bytesOf content) comment.span, line := comment.span.row + 1, column := comment.span.column,
          channel := 1, type := comment.symbol })
      (tree.tokens.filter fun t => t.channel = 1) ∧
    ∀ i : tree.Id, ∃ below : List tree.Id, below.Pairwise (· < ·) ∧
      (∀ j, j ∈ below ↔ Tree.Inside tree i j ∧ (tree.node j).kind = .terminal) ∧
      (tree.node i).text = String.join (below.map fun j => (tree.node j).text) := by
  obtain ⟨o, converted, flattened⟩ := parse_eq_ok_iff.1 parsed
  refine ⟨forall₂_terminals plain converted flattened, ?_, exists_spelling plain converted flattened⟩
  have hidden := sorted_hidden converted flattened
  rw [hidden_convert _ List.all_nil root] at hidden
  rw [Cst.comments, List.map_map]
  exact hidden

/-- Two node types that give way to their children, one of them within the other. -/
def nested : Config where
  profile := {}
  kinds := [("program", .sourceUnit), ("body", .block)]
  statementParents := ["body"]
  statementTypes := ["call"]
  spliced := [("body", ["members", "gap"]), ("members", ["group"])]
  extensions := .list []

/-- A body with a comment in each of two rows of members, a leaf that is given up, something put
in by error recovery, a statement, and a node of which only a comment is there. -/
def mended : Cst :=
  .node ⟨"program", 1, false, false, true, ⟨0, 0, 0, 13⟩⟩
    [.node ⟨"comment", 2, true, false, false, ⟨0, 0, 0, 2⟩⟩ [.node ⟨"word", 3, false, false, false, ⟨0, 0, 0, 2⟩⟩ []],
      .node ⟨"body", 4, false, false, true, ⟨1, 0, 3, 13⟩⟩
        [.node ⟨"open", 5, false, false, false, ⟨1, 0, 3, 4⟩⟩ [],
          .node ⟨"members", 6, false, false, false, ⟨1, 1, 4, 9⟩⟩
            [.node ⟨"group", 7, false, false, false, ⟨1, 1, 4, 7⟩⟩
                [.node ⟨"name", 8, false, false, false, ⟨1, 1, 4, 6⟩⟩ [],
                  .node ⟨"comment", 2, true, false, false, ⟨1, 3, 6, 7⟩⟩ []],
              .node ⟨"name", 8, false, false, false, ⟨1, 4, 7, 9⟩⟩ []],
          .node ⟨"gap", 9, false, false, false, ⟨1, 6, 9, 10⟩⟩ [],
          .node ⟨"call", 10, false, true, false, ⟨1, 7, 10, 10⟩⟩ [.node ⟨"name", 8, false, false, false, ⟨1, 7, 10, 10⟩⟩ []],
          .node ⟨"call", 10, false, false, false, ⟨1, 7, 10, 11⟩⟩ [.node ⟨"name", 8, false, false, false, ⟨1, 7, 10, 11⟩⟩ []],
          .node ⟨"void", 11, false, false, false, ⟨1, 8, 11, 12⟩⟩ [.node ⟨"comment", 2, true, false, false, ⟨1, 8, 11, 12⟩⟩ []],
          .node ⟨"close", 12, false, false, false, ⟨1, 9, 12, 13⟩⟩ []]]

def mendedText : String := "#1\n\x7bab#cd,e#\x7d"

theorem parse_keeps_tokens_mended :
    ∃ tree, (parse nested ⟨"A.java", some mendedText, some mended⟩).2 = .ok tree ∧
      (mended.keptLeaves nested).map (fun leaf => (textOf (bytesOf mendedText) leaf.span, leaf.span.column)) =
        [("\x7b", 0), ("ab", 1), ("cd", 4), ("e", 7), ("\x7d", 9)] ∧
      tree.tokens.filter (fun t => t.channel = 1) =
        [⟨"#1", 1, 0, 1, 2⟩, ⟨"#", 2, 3, 1, 2⟩, ⟨"#", 2, 8, 1, 2⟩] ∧
      List.Forall₂ (fun leaf i => leaf.WrittenAs (bytesOf mendedText) (tree.node i))
        (mended.keptLeaves nested) ((List.finRange tree.size).filter fun i => (tree.node i).kind = .terminal) := by
  have plain : ∀ type, nested.kind type ≠ .terminal := by
    intro type single
    cases found : Table.find? nested.kinds type with
    | none => simp [Config.kind, found] at single
    | some kind =>
      have listed : ∀ entry ∈ nested.kinds, entry.2 ≠ .terminal := by decide
      refine listed _ (Table.mem_of_find? found) ?_
      simpa [Config.kind, found] using single
  obtain ⟨tree, flattened⟩ := Tree.exists_toTree
    (((convert nested (bytesOf mendedText) mended).2).get rfl)
    (convert nested (bytesOf mendedText) mended).1
  have parsed : (parse nested ⟨"A.java", some mendedText, some mended⟩).2 = .ok tree :=
    parse_eq_ok_iff.2 ⟨_, (Option.some_get _).symm, flattened⟩
  obtain ⟨leaves, hidden, _⟩ := parse_keeps_tokens plain parsed
  have comments : (mended.comments.map fun comment => (⟨textOf (bytesOf mendedText) comment.span, comment.span.row + 1,
      comment.span.column, 1, comment.symbol⟩ : Token)) =
      [⟨"#1", 1, 0, 1, 2⟩, ⟨"#", 2, 3, 1, 2⟩, ⟨"#", 2, 8, 1, 2⟩] := by decide +kernel
  rw [comments] at hidden
  exact ⟨tree, parsed, by decide +kernel, hidden.unique ⟨.refl _, by decide, fun _ _ => rfl⟩, leaves⟩

end Java
end Indentation
