import Indentation.Outline.Reading
import Indentation.Proofs.Spanning

/-! Nested records built from the leaves up. Where all fields are of their types, building a record
is filling in the tree that it describes, so it succeeds exactly if every leaf says where it is. -/

namespace Indentation.Outline

open Schema

/-- The number that a value is. Truth values are numbers. -/
def whole? : Value → Option Int
  | .int n => some n
  | .bool b => some (if b then 1 else 0)
  | _ => none

def words? : Value → Option String
  | .str s => some s
  | _ => none

/-- A field that may be left out, or be null. -/
inductive Given {α : Type} (take : Value → Option α) : Option Value → Option α → Prop where
  | absent : Given take none none
  | null : Given take (some .null) none
  | value {v : Value} {a : α} (taken : take v = some a) : Given take (some v) (some a)

/-- A field that may be left out, and then has a value all the same. -/
inductive Defaulted {α : Type} (take : Value → Option α) (otherwise : α) : Option Value → α → Prop where
  | absent : Defaulted take otherwise none otherwise
  | value {v : Value} {a : α} (taken : take v = some a) : Defaulted take otherwise (some v) a

/-- A record whose fields are of their types. -/
structure Fits (fields : Fields) (draft : Draft) : Prop where
  kind : Table.find? fields "kind" = some (.str draft.kind.name)
  text : Given words? (Table.find? fields "text") draft.text
  line : Given whole? (Table.find? fields "line") draft.line
  column : Given whole? (Table.find? fields "column") draft.column
  stopLine : Given whole? (Table.find? fields "stop_line") draft.stopLine
  channel : Defaulted whole? 0 (Table.find? fields "channel") draft.channel
  type : Defaulted whole? 0 (Table.find? fields "token_type") draft.type

mutual

/-- A nested record and the tree that it describes. A row stands for a terminal. -/
inductive Describes : Value → Sketch → Prop where
  | bare {fields : Fields} {draft : Draft} (fits : Fits fields draft)
      (leaf : Table.find? fields "children" = none) : Describes (.obj fields) (.node draft [])
  | over {fields : Fields} {draft : Draft} {items : List Value} {children : List Sketch} (fits : Fits fields draft)
      (found : Table.find? fields "children" = some (.list items)) (all : DescribesAll items children) :
      Describes (.obj fields) (.node draft children)
  | row {text : String} {v w : Value} {line column : Int} (lined : whole? v = some line)
      (placed : whole? w = some column) :
      Describes (.list [.str text, v, w]) (.node ⟨.terminal, text, line, column, none, 0, 0⟩ [])

inductive DescribesAll : List Value → List Sketch → Prop where
  | nil : DescribesAll [] []
  | cons {v : Value} {s : Sketch} {items : List Value} {rest : List Sketch} (one : Describes v s)
      (all : DescribesAll items rest) : DescribesAll (v :: items) (s :: rest)

end

/-! ## Reading fields -/

theorem integer_of_whole? {v : Value} {n : Int} (taken : whole? v = some n) :
    v ≠ .null ∧ Read.integer v = .accepted n := by
  cases v with
  | int m => exact ⟨nofun, congrArg Verdict.accepted (Option.some.inj taken)⟩
  | bool b => exact ⟨nofun, congrArg Verdict.accepted (Option.some.inj taken)⟩
  | _ => cases taken

theorem text_of_words? {v : Value} {s : String} (taken : words? v = some s) :
    v ≠ .null ∧ Read.text v = .accepted s := by
  cases v with
  | str t => exact ⟨nofun, congrArg Verdict.accepted (Option.some.inj taken)⟩
  | _ => cases taken

section Reading

variable {α : Type} {take : Value → Option α} {read : Value → Verdict α}
  (agrees : ∀ {v a}, take v = some a → v ≠ .null ∧ read v = .accepted a) {form : Form} {name : String}
include agrees

theorem optional_of_given {a : Option α} (given : Given take (Table.find? form.fields name) a) :
    form.optional name none (Read.optional read) = .accepted a := by
  rw [Form.optional]
  generalize Table.find? form.fields name = found at given
  cases given with
  | absent => rfl
  | null => rfl
  | value taken =>
    obtain ⟨filled, reads⟩ := agrees taken
    dsimp only
    rw [Read.optional.eq_2 _ _ filled, reads]
    rfl

theorem optional_of_defaulted {otherwise a : α} (given : Defaulted take otherwise (Table.find? form.fields name) a) :
    form.optional name otherwise read = .accepted a := by
  rw [Form.optional]
  generalize Table.find? form.fields name = found at given
  cases given with
  | absent => rfl
  | value taken =>
    dsimp only
    rw [(agrees taken).2]
    rfl

end Reading

theorem choice_name (kind : Kind) : Read.choice Kind.choices (.str kind.name) = .accepted kind := by
  cases kind <;> rfl

theorem draft_of_fits {form : Form} {own : Draft} (fits : Fits form.fields own) (children : List Outline) :
    draft form (.accepted children) = .accepted (own, children) := by
  have kind : form.required "kind" (Read.choice Kind.choices) = .accepted own.kind := by
    rw [Form.required, fits.kind]
    dsimp only
    rw [choice_name]
    rfl
  rw [draft, kind, optional_of_given text_of_words? fits.text, optional_of_given integer_of_whole? fits.line,
    optional_of_given integer_of_whole? fits.column, optional_of_given integer_of_whole? fits.stopLine,
    optional_of_defaulted integer_of_whole? fits.channel, optional_of_defaulted integer_of_whole? fits.type]
  rfl

theorem readOver_iff {form : Form} {own : Draft} (fits : Fits form.fields own) {children : List Outline} {o : Outline} :
    (readOver form (.accepted children)).toExcept "ParseNode" = .ok o ↔ make own children = .ok o := by
  rw [readOver, draft_of_fits fits]
  change (form.insist ((make own children).mapError Unplaced.message)).toExcept "ParseNode" = .ok o ↔ _
  cases make own children with
  | ok made => exact ⟨fun h => by cases h; rfl, fun h => by cases h; rfl⟩
  | error fault => exact ⟨nofun, nofun⟩

/-! ## Building -/

theorem build_over_iff {fields : Fields} {own : Draft} (fits : Fits fields own) {children : List Outline} {o : Outline} :
    build fields (some children) = .ok o ↔ make own children = .ok o :=
  readOver_iff fits

theorem build_bare_iff {fields : Fields} {own : Draft} (fits : Fits fields own)
    (bare : Table.find? fields "children" = none) {o : Outline} : build fields none = .ok o ↔ make own [] = .ok o := by
  rw [build]
  dsimp only
  rw [Form.optional, bare]
  exact readOver_iff fits

theorem buildTerminal_iff {text : String} {v w : Value} {line column : Int} (lined : whole? v = some line)
    (placed : whole? w = some column) {o : Outline} :
    buildTerminal (.str text) v w = .ok o ↔ make ⟨.terminal, text, line, column, none, 0, 0⟩ [] = .ok o := by
  rw [buildTerminal]
  apply readOver_iff
  exact ⟨rfl, .value rfl, .value lined, .value placed, .absent, .absent, .absent⟩

theorem assemble_bare {fields : Fields} (bare : Table.find? fields "children" = none) :
    assemble (.obj fields) = build fields none := by
  rw [assemble]
  split
  next items found =>
    rw [bare] at found
    cases found
  next => rfl

theorem assemble_over {fields : Fields} {items : List Value} (found : Table.find? fields "children" = some (.list items)) :
    assemble (.obj fields) = (do build fields (some (← items.mapM assemble))) := by
  have each : items.attach.mapM (fun item => assemble item.val) = items.mapM assemble := by
    change items.attach.mapM (assemble ∘ Subtype.val) = _
    rw [← List.mapM_map, List.attach_map_subtype_val]
  rw [assemble]
  split
  next others same =>
    rw [found] at same
    cases same
    rw [← each]
  next other => exact absurd found (other items)

mutual

theorem assemble_iff {v : Value} {s : Sketch} (described : Describes v s) {o : Outline} :
    assemble v = .ok o ↔ s.place = .ok o := by
  match described with
  | .bare fits bare =>
    rw [assemble_bare bare, build_bare_iff fits bare]
    rfl
  | .over fits found all =>
    rw [assemble_over found, Sketch.place, bind_eq_ok_iff, bind_eq_ok_iff]
    simp only [assembleAll_iff all, build_over_iff fits]
  | .row lined placed =>
    rw [assemble]
    exact buildTerminal_iff lined placed
termination_by structural described

theorem assembleAll_iff {items : List Value} {children : List Sketch} (described : DescribesAll items children)
    {os : List Outline} : items.mapM assemble = .ok os ↔ Sketch.placeAll children = .ok os := by
  match described with
  | .nil =>
    simp only [List.mapM_nil, Sketch.placeAll, pure, Except.pure, Except.ok.injEq]
  | .cons one all =>
    rw [List.mapM_cons, Sketch.placeAll, bind_eq_ok_iff, bind_eq_ok_iff]
    simp only [bind_eq_ok_iff, assemble_iff one, assembleAll_iff all, pure, Except.pure, Except.ok.injEq]
termination_by structural described

end

/-- A record whose fields are of their types can be built exactly if every leaf says its line and
its column, and then each node stands where the edges of the tree below it say. Where nodes are
filled in one field after the other and a field may stay empty, the same comes out: none does. -/
theorem assemble_spans {v : Value} {s : Sketch} (described : Describes v s) :
    ((∃ o, assemble v = .ok o) ↔ ∀ draft ∈ s.leaves, draft.line.isSome ∧ draft.column.isSome) ∧
    (∀ o, assemble v = .ok o → Sketch.Spans s o.sketch) ∧
    ∀ t, s.fill = .ok t ↔ ∃ o, assemble v = .ok o ∧ o.sketch = t := by
  have same : ∀ t, s.fill = .ok t ↔ ∃ o, assemble v = .ok o ∧ o.sketch = t := by
    intro t
    simp only [Sketch.fill_iff, assemble_iff described]
  refine ⟨?_, ?_, same⟩
  · have filled : (∃ o, assemble v = .ok o) ↔ ∃ t, s.fill = .ok t := by
      constructor
      · rintro ⟨o, made⟩
        exact ⟨o.sketch, (same _).2 ⟨o, made, rfl⟩⟩
      · rintro ⟨t, done⟩
        obtain ⟨o, made, -⟩ := (same t).1 done
        exact ⟨o, made⟩
    exact filled.trans s.exists_fill_iff
  · intro o made
    exact s.spans_fill ((same _).2 ⟨o, made, rfl⟩)

namespace Scattered

/-- The line of the root stands in its first child, whose own first child is on another one. -/
def record : Value :=
  .obj [("kind", .str "block"), ("column", .int 0), ("children", .list [
    .obj [("kind", .str "statement"), ("text", .str "a;"), ("line", .int 3), ("children", .list [
      .list [.str "a", .int 2, .int 4],
      .obj [("kind", .str "terminal"), ("line", .int 2), ("column", .int 9), ("stop_line", .int 5)]])],
    .obj [("kind", .str "terminal"), ("text", .null), ("line", .int 7), ("column", .bool true)]])]

def sketch : Sketch :=
  .node ⟨.block, none, none, some 0, none, 0, 0⟩ [
    .node ⟨.statement, some "a;", some 3, none, none, 0, 0⟩ [
      .node ⟨.terminal, some "a", some 2, some 4, none, 0, 0⟩ [],
      .node ⟨.terminal, none, some 2, some 9, some 5, 0, 0⟩ []],
    .node ⟨.terminal, none, some 7, some 1, none, 0, 0⟩ []]

theorem described : Describes record sketch := by
  refine .over ⟨rfl, .absent, .absent, .value rfl, .absent, .absent, .absent⟩ rfl (.cons ?_ (.cons ?_ .nil))
  · refine .over ⟨rfl, .value rfl, .value rfl, .absent, .absent, .absent, .absent⟩ rfl (.cons ?_ (.cons ?_ .nil))
    · exact .row rfl rfl
    · exact .bare ⟨rfl, .absent, .value rfl, .value rfl, .value rfl, .absent, .absent⟩ rfl
  · exact .bare ⟨rfl, .null, .value rfl, .value rfl, .absent, .absent, .absent⟩ rfl

end Scattered

theorem assemble_spans_scattered :
    ∃ o, assemble Scattered.record = .ok o ∧ o.label.line = 3 ∧ o.label.column = 0 ∧ o.label.stopLine = 7 ∧
      o.label.text = some "a;" := by
  obtain ⟨succeeds, spans, -⟩ := assemble_spans Scattered.described
  obtain ⟨⟨label, children⟩, made⟩ := succeeds.2 (by simp [Scattered.sketch, Sketch.leaves, Sketch.leavesAll])
  have spanned := spans _ made
  rw [Scattered.sketch, sketch] at spanned
  generalize sketchAll children = below at spanned
  cases spanned with
  | node own all =>
    cases all with
    | cons one rest =>
      cases rest with
      | cons two none =>
        cases none
        refine ⟨_, made, Option.some.inj own.line, Option.some.inj own.column, Option.some.inj own.stopLine, ?_⟩
        have texts := own.text
        simp only [Sketch.children_node, List.map_cons, List.map_nil, one.stands.text, two.stands.text] at texts
        exact texts

end Indentation.Outline
