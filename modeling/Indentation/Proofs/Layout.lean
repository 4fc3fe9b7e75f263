import Indentation.Proofs.Faithful

/-! Well formatted outlines. A member at a depth starts on a line of its own in the column
of that depth; it is a row of plain nodes, a header with a braced body, or a statement that
controls others. The bodies of such a statement are braced and open on the line of its
header, or they are members one step deeper on later lines. What follows the end of a braced
body may share its line; a condition that is chained to another one has braced bodies only,
since an unbraced one would be measured from the middle of a line. -/

namespace Indentation.Outline

/-- Tokens and plain nodes on one line. -/
def Flat (line : Int) (o : Outline) : Prop :=
  ∀ label ∈ o.labels, (label.kind = .other ∨ label.kind = .terminal) ∧ label.line = line

/-- One after the other, each on later lines than those before it. -/
def Stacked (os : List Outline) : Prop := os.Pairwise fun a b => a.label.stopLine < b.label.line

/-- A single token on a line. -/
structure Stands (line : Int) (o : Outline) : Prop where
  kind : o.label.kind = .terminal
  line : o.label.line = line

/-- Braces with the closing one in a column. -/
structure Encloses (line column : Int) (opening : Outline) (members : List Outline) (closing : Outline) : Prop where
  opens : opening.Stands line
  brace : opening.label.text = some "\x7b"
  closes : closing.label.kind = .terminal
  counterpart : closing.label.text = some "\x7d"
  column : closing.label.column = column
  stacked : Stacked (opening :: (members ++ [closing]))

/-- The last line of a body goes on, or a new line starts in a column. -/
def Continues (column header : Int) (body next : Label) : Prop :=
  header < next.line ∧
    (body.line = header ∧ next.line = body.stopLine ∨ body.stopLine < next.line ∧ next.column = column)

inductive Role where
  | member
  /-- A controlling statement; a loose one may have bodies without braces. -/
  | construct (loose : Bool)
  /-- A block or a chained condition. -/
  | inner
  /-- What is controlled from a line. -/
  | body (loose : Bool) (line : Int)

inductive Formatted (unit : Int) : Role → Nat → Outline → Prop where
  | plain {k : Nat} {label : Label} {children : List Outline} {line : Int}
      (kind : label.kind = .other ∨ label.kind = .statement) (flat : ∀ o ∈ children, o.Flat line)
      (column : label.column = k * unit) : Formatted unit .member k (node label children)
  | headed {k : Nat} {label : Label} {header : List Outline} {block : Outline}
      (kind : label.kind = .other ∨ label.kind = .statement) (flat : ∀ o ∈ header, o.Stands label.line)
      (inside : Formatted unit .inner k block) (braced : block.label.kind = .block)
      (level : block.label.line = label.line) (column : label.column = k * unit) :
      Formatted unit .member k (node label (header ++ [block]))
  | braced {k : Nat} {label : Label} {header members : List Outline} {opening closing : Outline}
      (kind : label.kind ∈ [Kind.block, .contractDefinition, .structDefinition, .enumDefinition, .importDirective,
        .functionCallArguments])
      (flat : ∀ o ∈ header, o.Stands label.line)
      (encloses : Encloses label.line (k * unit) opening members closing)
      (inside : ∀ o ∈ members, Formatted unit .member (k + 1) o) (column : label.column = k * unit) :
      Formatted unit .member k (node label (header ++ opening :: (members ++ [closing])))
  | controlled {k : Nat} {label : Label} {construct : Outline} (kind : label.kind = .statement)
      (inside : Formatted unit (.construct true) k construct) (column : label.column = k * unit) :
      Formatted unit .member k (node label [construct])
  | simple {k : Nat} {loose : Bool} {label : Label} {header : List Outline} {body : Outline}
      (kind : label.kind = .ifStatement ∨
        loose = true ∧ (label.kind = .whileStatement ∨ label.kind = .forStatement))
      (nonempty : header ≠ []) (flat : ∀ o ∈ header, o.Flat label.line)
      (inside : Formatted unit (.body loose label.line) k body) :
      Formatted unit (.construct loose) k (node label (header ++ [body]))
  | branching {k : Nat} {loose : Bool} {label : Label} {header : List Outline} {first otherwise second : Outline}
      (kind : label.kind = .ifStatement) (length : header.length = 4) (flat : ∀ o ∈ header, o.Flat label.line)
      (inside : Formatted unit (.body loose label.line) k first) (token : otherwise.label.kind = .terminal)
      (continues : Continues (k * unit) label.line first.label otherwise.label)
      (alternative : Formatted unit (.body loose otherwise.label.line) k second) :
      Formatted unit (.construct loose) k (node label (header ++ [first, otherwise, second]))
  | repeated {k : Nat} {label : Label} {head body next : Outline} {rest : List Outline}
      (kind : label.kind = .doWhileStatement) (flat : head.Flat label.line)
      (inside : Formatted unit (.body true label.line) k body)
      (continues : Continues (k * unit) label.line body.label next.label)
      (condition : ∀ o ∈ next :: rest, o.Flat next.label.line) :
      Formatted unit (.construct true) k (node label (head :: body :: next :: rest))
  | block {k : Nat} {label : Label} {members : List Outline} {opening closing : Outline} (kind : label.kind = .block)
      (encloses : Encloses label.line (k * unit) opening members closing)
      (inside : ∀ o ∈ members, Formatted unit .member (k + 1) o) :
      Formatted unit .inner k (node label (opening :: (members ++ [closing])))
  | chained {k : Nat} {o : Outline} (inside : Formatted unit (.construct false) k o) : Formatted unit .inner k o
  | direct {k : Nat} {loose : Bool} {line : Int} {o : Outline} (inside : Formatted unit .inner k o)
      (level : o.label.line = line) : Formatted unit (.body loose line) k o
  | wrapped {k : Nat} {loose : Bool} {line : Int} {label : Label} {o : Outline} (kind : label.kind = .statement)
      (inside : Formatted unit .inner k o) (level : o.label.line = line) :
      Formatted unit (.body loose line) k (node label [o])
  | bare {k : Nat} {line : Int} {o : Outline} (inside : Formatted unit .member (k + 1) o)
      (later : line < o.label.line) : Formatted unit (.body true line) k o

/-- A well formatted source unit, with or without the end of the file among its nodes. -/
structure Tidy (unit : Int) (root : Outline) : Prop where
  kind : root.label.kind = .sourceUnit
  derived : root.Derived
  rising : root.leaves.Pairwise Label.Before
  children : ∃ members ending, root.children = members ++ ending ∧
    (∀ o ∈ members, Formatted unit .member 0 o ∧ ∀ leaf ∈ o.leaves, leaf.channel = 0 ∧ 0 ≤ leaf.type) ∧
    Stacked members ∧ (ending = [] ∨ ∃ last, ending = [last] ∧ last.label.kind = .terminal ∧
      last.label.text = some "<EOF>" ∧ last.label.type < 0)

end Indentation.Outline
