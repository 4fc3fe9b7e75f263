import Indentation.Tree.Basic

/-! Trees built from numbered entries. The entries are accepted when there is one at
least, the first has no parent, each is numbered by its place, every parent exists and
every listed child exists and points back; otherwise the first flaw is named. -/

namespace Indentation

structure Entry where
  index : Int
  kind : Kind
  parent : Option Int := none
  children : List Int := []
  line : Int
  column : Int
  stopLine : Int
  text : String := ""
  token : Option Token := none
  deriving DecidableEq, Repr

open Schema in
def Entry.read (form : Form) : Verdict Entry :=
  Entry.mk <$> form.required "index" Read.integer
    <*> form.required "kind" (Read.choice Kind.choices)
    <*> form.optional "parent" none (Read.optional Read.integer)
    <*> form.optional "children" [] (Read.list Read.integer)
    <*> form.required "line" Read.integer
    <*> form.required "column" Read.integer
    <*> form.required "stop_line" Read.integer
    <*> form.optional "text" "" Read.text
    <*> form.optional "token" none (Read.optional (Read.record "Token" Token.read))

namespace Tree

inductive Flaw where
  | empty
  | rootParent
  | misnumbered (position : Nat) (index : Int)
  | danglingParent (index parent : Int)
  | inconsistentChild (index child : Int)
  deriving DecidableEq, Repr

def Flaw.message : Flaw → String
  | .empty => "Syntax tree must contain at least one node"
  | .rootParent => "Root node must not have a parent"
  | .misnumbered position index =>
    "Node at position " ++ toString position ++ " has index " ++ toString index
  | .danglingParent index parent =>
    "Node " ++ toString index ++ " has dangling parent " ++ toString parent
  | .inconsistentChild index child =>
    "Node " ++ toString index ++ " has inconsistent child " ++ toString child

/-- A number as a place among `n`. -/
def place? (n : Nat) (number : Int) : Option (Fin n) :=
  if h : 0 ≤ number ∧ number.toNat < n then some ⟨number.toNat, h.2⟩ else none

variable (entries : Array Entry)

/-- The parent that a listed child names. -/
def namedParent? (number : Int) : Option Int :=
  (place? entries.size number).bind fun i => entries[i].parent

def childFlaw? (entry : Entry) (child : Int) : Option Flaw :=
  if namedParent? entries child = some entry.index then none
  else some (.inconsistentChild entry.index child)

def parentFlaw? (entry : Entry) : Option Flaw :=
  match entry.parent with
  | some parent =>
    if (place? entries.size parent).isSome then none
    else some (.danglingParent entry.index parent)
  | none => none

def entryFlaw? (position : Fin entries.size) : Option Flaw :=
  let entry := entries[position]
  if entry.index ≠ position.val then some (.misnumbered position entry.index)
  else (parentFlaw? entries entry).or (entry.children.findSome? (childFlaw? entries entry))

/-- The first thing wrong with a row of entries. -/
def flaw? : Option Flaw :=
  if h : 0 < entries.size then
    if entries[0].parent.isSome then some .rootParent
    else (List.finRange entries.size).findSome? (entryFlaw? entries)
  else some .empty

def nodeOf (entry : Entry) (n : Nat) : Node n where
  kind := entry.kind
  parent := entry.parent.bind (place? n)
  children := entry.children.filterMap (place? n)
  line := entry.line
  column := entry.column
  stopLine := entry.stopLine
  text := entry.text
  token := entry.token

variable {entries}

theorem place?_eq_some {n : Nat} {number : Int} {i : Fin n} :
    place? n number = some i ↔ number = i.val := by
  unfold place?
  split
  · simp only [Option.some.injEq, Fin.ext_iff]; omega
  · simp only [reduceCtorEq, false_iff]; have := i.isLt; omega

theorem flawless_entry (flawless : flaw? entries = none) (i : Fin entries.size) :
    entryFlaw? entries i = none := by
  unfold flaw? at flawless
  split at flawless
  · split at flawless
    · cases flawless
    · exact List.findSome?_eq_none_iff.1 flawless i (List.mem_finRange i)
  · cases flawless

theorem size_pos_of_flawless (flawless : flaw? entries = none) : 0 < entries.size := by
  unfold flaw? at flawless
  split at flawless
  · assumption
  · cases flawless

private theorem rootFree_of_flawless (flawless : flaw? entries = none) (inside : 0 < entries.size) :
    (nodeOf entries[0] entries.size).parent = none := by
  have free : entries[0].parent.isSome = false := by
    by_cases found : entries[0].parent.isSome
    · simp [flaw?, inside, found] at flawless
    · simpa using found
  simp [nodeOf, Option.isNone_iff_eq_none.1 (Option.isSome_eq_false_iff.1 free)]

private theorem linked_of_flawless (flawless : flaw? entries = none) {p c : Fin entries.size}
    (listed : c ∈ (nodeOf entries[p] entries.size).children) :
    (nodeOf entries[c] entries.size).parent = some p := by
  obtain ⟨number, member, placed⟩ := List.mem_filterMap.1 listed
  have clean := flawless_entry flawless p
  unfold entryFlaw? at clean
  simp only at clean
  split at clean
  · cases clean
  · rename_i numbered
    have children := (Option.or_eq_none_iff.1 clean).2
    have named := List.findSome?_eq_none_iff.1 children number member
    unfold childFlaw? at named
    split at named
    · rename_i same
      simp only [namedParent?, placed, Option.bind_some] at same
      simp only [nodeOf, Fin.getElem_fin] at same ⊢
      rw [same]
      simp only [Option.bind_some]
      rw [place?_eq_some]
      simpa using numbered
    · cases named

/-- Tokens default to those of the nodes. -/
def ofEntries (entries : List Entry) (tokens : Option (List Token)) : Except Flaw Tree :=
  let row := entries.toArray
  match h : flaw? row with
  | some flaw => .error flaw
  | none =>
    let nodes := Vector.ofFn fun i : Fin row.size => nodeOf row[i] row.size
    .ok {
      size := row.size
      node := fun i => nodes[i]
      tokens := (tokens.getD (entries.filterMap (·.token))).mergeSort Token.before
      nonempty := size_pos_of_flawless h
      root_free := by simpa [nodes] using rootFree_of_flawless h (size_pos_of_flawless h)
      linked := by
        intro p c listed
        simp only [nodes, Fin.getElem_fin, Vector.getElem_ofFn] at listed ⊢
        exact linked_of_flawless h listed }

end Tree
end Indentation
