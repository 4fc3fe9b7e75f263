import Indentation.Java.Convert
import Indentation.Proofs.Flattening

/-! What conversion keeps of a concrete tree. Every leaf that belongs to the tree becomes a
terminal, in the order of the source; every comment becomes a hidden token, once; and the text
of a node is that of the terminals below it in a row. A leaf is lost in three ways only: it
stands in a comment, or in something that error recovery put in, or it is itself of a type
that its parent gives up for its children. -/

namespace Indentation

namespace Java

namespace Cst

/-- A comment, or put in by error recovery. -/
def Label.isLeftOut (label : Label) : Bool := label.isExtra || label.isMissing

/-- A node together with the labels above it, the nearest first. -/
structure Place where
  label : Label
  children : List Cst
  above : List Label

namespace Place

/-- Whether nothing above the node is left out. -/
def isReached (place : Place) : Bool := place.above.all fun label => !label.isLeftOut

/-- Whether the type of the node is among those that its parent's type gives up. -/
def isSpliced (config : Config) (place : Place) : Bool :=
  place.above.head?.any fun parent => ((Table.find? config.spliced parent.type).getD []).contains place.label.type

/-- A leaf that belongs to the tree. -/
def isKept (config : Config) (place : Place) : Bool :=
  place.children.isEmpty && !place.label.isLeftOut && place.isReached && !place.isSpliced config

def isComment (place : Place) : Bool := place.label.isExtra && place.isReached

end Place

mutual

/-- All nodes of a tree, a node before those below it and these from left to right. -/
def places (above : List Label) : Cst → List Place
  | .node label children => ⟨label, children, above⟩ :: placesAll (label :: above) children

def placesAll (above : List Label) : List Cst → List Place
  | [] => []
  | child :: rest => places above child ++ placesAll above rest

end

def keptLeaves (config : Config) (root : Cst) : List Label :=
  ((root.places []).filter (Place.isKept config)).map (·.label)

def comments (root : Cst) : List Label := ((root.places []).filter Place.isComment).map (·.label)

mutual

theorem suffix_of_mem_places {above : List Label} {place : Place} (c : Cst) (member : place ∈ c.places above) :
    above <:+ place.above := by
  cases c with
  | node label children =>
    rw [places] at member
    rcases List.mem_cons.1 member with rfl | below
    · exact List.suffix_refl _
    · exact (List.suffix_cons label above).trans (suffix_of_mem_placesAll children below)

theorem suffix_of_mem_placesAll {above : List Label} {place : Place} (cs : List Cst)
    (member : place ∈ placesAll above cs) : above <:+ place.above := by
  cases cs with
  | nil => cases member
  | cons child rest =>
    rw [placesAll] at member
    rcases List.mem_append.1 member with first | later
    · exact suffix_of_mem_places child first
    · exact suffix_of_mem_placesAll rest later

end

/-- Nothing is reached below a node that is left out. -/
theorem isReached_of_leftOut {label : Label} {above : List Label} {children : List Cst} {place : Place}
    (out : label.isLeftOut = true) (member : place ∈ placesAll (label :: above) children) : place.isReached = false := by
  have inside : label ∈ place.above := (suffix_of_mem_placesAll children member).subset List.mem_cons_self
  rw [Place.isReached, List.all_eq_false]
  exact ⟨label, inside, by simp [out]⟩

end Cst

end Java

namespace Outline

/-- The labels of the terminals in an outline, from left to right. -/
def terminals (o : Outline) : List Label := o.labels.filter fun label => label.kind = .terminal

def terminalsAll (os : List Outline) : List Label := (labelsAll os).filter fun label => label.kind = .terminal

theorem labelsAll_append (first second : List Outline) : labelsAll (first ++ second) = labelsAll first ++ labelsAll second := by
  induction first with
  | nil => rfl
  | cons o rest ih => rw [List.cons_append, labelsAll, labelsAll, ih, List.append_assoc]

theorem terminalsAll_append (first second : List Outline) :
    terminalsAll (first ++ second) = terminalsAll first ++ terminalsAll second := by
  rw [terminalsAll, labelsAll_append, List.filter_append]
  rfl

theorem terminalsAll_singleton (o : Outline) : terminalsAll [o] = o.terminals := by
  rw [terminalsAll, labelsAll, labelsAll, List.append_nil]
  rfl

theorem terminals_of_composite {label : Label} {children : List Outline} (kind : label.kind ≠ .terminal) :
    (node label children).terminals = terminalsAll children := by
  rw [terminals, labels, List.filter_cons_of_neg (by simpa using kind)]
  rfl

/-- A single token, or a node whose text is that of its children in a row. -/
inductive Spelled : Outline → Prop where
  | token {label : Label} (kind : label.kind = .terminal) : Spelled (node label [])
  | composite {label : Label} {children : List Outline} (kind : label.kind ≠ .terminal)
      (text : label.text.getD "" = joinedText children) (parts : ∀ o ∈ children, Spelled o) :
      Spelled (node label children)

theorem Spelled.children {o : Outline} (spelled : o.Spelled) : ∀ child ∈ o.children, child.Spelled := by
  cases spelled with
  | token => exact nofun
  | composite _ _ parts => exact parts

theorem Spelled.part {part o : Outline} (spelled : o.Spelled) (inside : part.Part o) : part.Spelled := by
  induction inside with
  | whole => exact spelled
  | inner member _ ih => exact ih (spelled.children _ member)

/-- The text of terminals in a row. -/
def spelling (labels : List Label) : String := String.join (labels.map fun label => label.text.getD "")

theorem spelling_append (first second : List Label) :
    spelling (first ++ second) = spelling first ++ spelling second := by
  rw [spelling, List.map_append, String.join_append]
  rfl

private theorem joinedText_eq {os : List Outline} (known : ∀ o ∈ os, o.label.text.getD "" = spelling o.terminals) :
    joinedText os = spelling (terminalsAll os) := by
  induction os with
  | nil => rfl
  | cons o rest ih =>
    have others := ih fun other member => known other (List.mem_cons_of_mem _ member)
    rw [joinedText] at others ⊢
    rw [List.map_cons, String.join_cons, others, known o List.mem_cons_self, ← spelling_append,
      ← terminalsAll_singleton, ← terminalsAll_append]
    rfl

/-- The text of a node is that of the terminals at or below it. -/
theorem Spelled.text_eq {o : Outline} (spelled : o.Spelled) : o.label.text.getD "" = spelling o.terminals := by
  induction spelled with
  | @token label kind =>
    have single : (node label []).terminals = [label] := by simp [terminals, labels, labelsAll, kind]
    rw [single, spelling, List.map_singleton, String.join_cons, String.join_nil, String.append_empty]
    rfl
  | composite kind text _ ih =>
    rw [terminals_of_composite kind, ← joinedText_eq ih]
    exact text

end Outline

namespace Java

/-- A node over what is left of its children: a kind of the configuration, and the text of these children. -/
theorem Cst.Label.composite_eq (label : Label) (config : Config) (kept : List Outline) :
    ∃ own : Outline.Label, label.composite config kept = .node own kept ∧ own.kind = config.kind label.type ∧
      own.text.getD "" = Outline.joinedText kept ∧ own.channel = 0 := by
  unfold composite
  cases kept with
  | nil => exact ⟨_, rfl, rfl, rfl, rfl⟩
  | cons first rest => exact ⟨_, rfl, rfl, rfl, rfl⟩

theorem terminalsAll_adopted (config : Config) (parent type : String) (o : Outline) :
    Outline.terminalsAll (adopted config parent type o) =
      if config.splices parent type then Outline.terminalsAll o.children else o.terminals := by
  unfold adopted
  split
  next => rfl
  next =>
    split
    next =>
      -- The node around a statement is no terminal.
      rw [Outline.terminalsAll_singleton, statement, Outline.placed, Outline.terminals_of_composite (by simp),
        Outline.terminalsAll_singleton]
    next => exact Outline.terminalsAll_singleton o

section Converting

open Text.Utf8 (Byte)

variable (config : Config) (source : List Byte) {label : Cst.Label} {children : List Cst}

theorem convert_of_leftOut (children : List Cst) (out : label.isLeftOut = true) :
    convert config source (.node label children) = (if label.isExtra then [label.hiddenToken source] else [], none) := by
  rw [convert]
  by_cases extra : label.isExtra = true
  · simp [extra]
  · have missing : label.isMissing = true := by simpa [Cst.Label.isLeftOut, extra] using out
    simp [extra, missing]

theorem convert_of_leaf (belongs : label.isLeftOut = false) :
    convert config source (.node label []) = ([], some (label.terminal source)) := by
  obtain ⟨extra, missing⟩ := Bool.or_eq_false_iff.1 belongs
  simp [convert, extra, missing]

theorem convert_of_composite (belongs : label.isLeftOut = false) (nonempty : children ≠ []) :
    convert config source (.node label children) =
      ((convertAll config source label.type children).1,
        some (label.composite config (convertAll config source label.type children).2)) := by
  obtain ⟨extra, missing⟩ := Bool.or_eq_false_iff.1 belongs
  simp [convert, extra, missing, nonempty]

theorem convertAll_cons (parent : String) (c : Cst) (rest : List Cst) :
    convertAll config source parent (c :: rest) =
      ((convert config source c).1 ++ (convertAll config source parent rest).1,
        ((convert config source c).2.map (adopted config parent c.label.type)).getD [] ++
          (convertAll config source parent rest).2) := by
  rw [convertAll]

/-- A node is left out, is a leaf, or has children to convert. -/
theorem convert_cases (label : Cst.Label) (children : List Cst) :
    label.isLeftOut = true ∧
      convert config source (.node label children) = (if label.isExtra then [label.hiddenToken source] else [], none) ∨
    label.isLeftOut = false ∧ children = [] ∧
      convert config source (.node label children) = ([], some (label.terminal source)) ∨
    label.isLeftOut = false ∧ children ≠ [] ∧
      convert config source (.node label children) =
        ((convertAll config source label.type children).1,
          some (label.composite config (convertAll config source label.type children).2)) := by
  cases out : label.isLeftOut with
  | true => exact .inl ⟨rfl, convert_of_leftOut config source children out⟩
  | false =>
    by_cases empty : children = []
    · subst empty
      exact .inr (.inl ⟨rfl, rfl, convert_of_leaf config source out⟩)
    · exact .inr (.inr ⟨rfl, empty, convert_of_composite config source out empty⟩)

/-- The labels of the terminals that kept leaves become. -/
def written (places : List Cst.Place) : List Outline.Label :=
  (places.filter (Cst.Place.isKept config)).map fun place => (place.label.terminal source).label

theorem written_append (first second : List Cst.Place) :
    written config source (first ++ second) = written config source first ++ written config source second := by
  simp [written]

/-- The hidden tokens that comments become. -/
def hiddenTokens (places : List Cst.Place) : List Token :=
  (places.filter Cst.Place.isComment).map fun place => place.label.hiddenToken source

theorem hiddenTokens_append (first second : List Cst.Place) :
    hiddenTokens source (first ++ second) = hiddenTokens source first ++ hiddenTokens source second := by
  simp [hiddenTokens]

theorem written_of_leftOut (above : List Cst.Label) (children : List Cst) (out : label.isLeftOut = true) :
    written config source ((Cst.node label children).places above) = [] := by
  have none_kept : ∀ place ∈ (Cst.node label children).places above, ¬ place.isKept config = true := by
    intro place member
    rcases List.mem_cons.1 member with rfl | below
    · simp [Cst.Place.isKept, out]
    · simp [Cst.Place.isKept, Cst.isReached_of_leftOut out below]
  rw [written, List.filter_eq_nil_iff.2 none_kept, List.map_nil]

theorem written_of_composite (above : List Cst.Label) (nonempty : children ≠ []) :
    written config source ((Cst.node label children).places above) =
      written config source (Cst.placesAll (label :: above) children) := by
  have other : (⟨label, children, above⟩ : Cst.Place).isKept config = false := by simp [Cst.Place.isKept, nonempty]
  rw [Cst.places, written, List.filter_cons_of_neg (by simp [other])]
  rfl

variable {config}

theorem written_of_leaf {parent : Cst.Label} {above : List Cst.Label} (belongs : label.isLeftOut = false)
    (reached : (parent :: above).all (fun label => !label.isLeftOut) = true) :
    written config source ((Cst.node label []).places (parent :: above)) =
      if config.splices parent.type label.type then [] else [(label.terminal source).label] := by
  have kept : (⟨label, [], parent :: above⟩ : Cst.Place).isKept config = !config.splices parent.type label.type := by
    simp only [Cst.Place.isKept, Cst.Place.isReached, Cst.Place.isSpliced, belongs, reached]
    rfl
  rw [Cst.places, Cst.placesAll, written, List.filter_cons, kept]
  cases config.splices parent.type label.type with
  | true => rfl
  | false => rfl

mutual

theorem terminals_adopted (plain : ∀ type, config.kind type ≠ .terminal) {parent : Cst.Label} {above : List Cst.Label}
    (reached : (parent :: above).all (fun label => !label.isLeftOut) = true) (c : Cst) :
    Outline.terminalsAll (((convert config source c).2.map (adopted config parent.type c.label.type)).getD []) =
      written config source (c.places (parent :: above)) := by
  cases c with
  | node label children =>
    rcases convert_cases config source label children with ⟨out, made⟩ | ⟨belongs, rfl, made⟩ | ⟨belongs, nonempty, made⟩
    · rw [made, written_of_leftOut config source _ children out]
      rfl
    · rw [made, Option.map_some, Option.getD_some, terminalsAll_adopted, written_of_leaf source belongs reached]
      rfl
    · obtain ⟨own, composite, kind, _⟩ := label.composite_eq config (convertAll config source label.type children).2
      have below : (label :: parent :: above).all (fun label => !label.isLeftOut) = true := by
        rw [List.all_cons, belongs, reached]
        rfl
      -- Whether or not the node gives way to its children, its terminals are theirs.
      rw [made, written_of_composite config source _ nonempty, Option.map_some, Option.getD_some, terminalsAll_adopted,
        composite, Outline.terminals_of_composite (kind ▸ plain label.type), Outline.children, ite_self,
        terminals_convertAll plain below children]

theorem terminals_convertAll (plain : ∀ type, config.kind type ≠ .terminal) {parent : Cst.Label} {above : List Cst.Label}
    (reached : (parent :: above).all (fun label => !label.isLeftOut) = true) (cs : List Cst) :
    Outline.terminalsAll (convertAll config source parent.type cs).2 =
      written config source (Cst.placesAll (parent :: above) cs) := by
  cases cs with
  | nil => rfl
  | cons c rest =>
    rw [convertAll_cons, Outline.terminalsAll_append, Cst.placesAll, written_append, terminals_adopted plain reached c,
      terminals_convertAll plain reached rest]

end

/-- The terminals of a whole tree. The root has no parent that could give it up. -/
theorem terminals_convert (plain : ∀ type, config.kind type ≠ .terminal) {root : Cst} {o : Outline}
    (made : (convert config source root).2 = some o) : o.terminals = written config source (root.places []) := by
  cases root with
  | node label children =>
    rcases convert_cases config source label children with ⟨_, given⟩ | ⟨belongs, rfl, given⟩ | ⟨belongs, nonempty, given⟩
    · cases given ▸ made
    · cases given ▸ made
      have kept : (⟨label, [], []⟩ : Cst.Place).isKept config = true := by
        simp [Cst.Place.isKept, Cst.Place.isReached, Cst.Place.isSpliced, belongs]
      rw [Cst.places, Cst.placesAll, written, List.filter_cons_of_pos kept]
      rfl
    · cases given ▸ made
      obtain ⟨own, composite, kind, _⟩ := label.composite_eq config (convertAll config source label.type children).2
      rw [composite, Outline.terminals_of_composite (kind ▸ plain label.type),
        written_of_composite config source _ nonempty]
      exact terminals_convertAll source plain (by simp [belongs]) children

theorem hiddenTokens_of_leftOut {above : List Cst.Label} (children : List Cst) (out : label.isLeftOut = true)
    (reached : above.all (fun label => !label.isLeftOut) = true) :
    hiddenTokens source ((Cst.node label children).places above) =
      if label.isExtra then [label.hiddenToken source] else [] := by
  have none_below : ∀ place ∈ Cst.placesAll (label :: above) children, ¬ place.isComment = true := by
    intro place member
    simp [Cst.Place.isComment, Cst.isReached_of_leftOut out member]
  have own : (⟨label, children, above⟩ : Cst.Place).isComment = label.isExtra := by
    rw [Cst.Place.isComment, Cst.Place.isReached, reached, Bool.and_true]
  rw [Cst.places, hiddenTokens, List.filter_cons, List.filter_eq_nil_iff.2 none_below, own]
  cases label.isExtra with
  | true => rfl
  | false => rfl

theorem hiddenTokens_of_belongs {above : List Cst.Label} (children : List Cst) (belongs : label.isLeftOut = false) :
    hiddenTokens source ((Cst.node label children).places above) =
      hiddenTokens source (Cst.placesAll (label :: above) children) := by
  have other : (⟨label, children, above⟩ : Cst.Place).isComment = false := by
    simp [Cst.Place.isComment, (Bool.or_eq_false_iff.1 belongs).1]
  rw [Cst.places, hiddenTokens, List.filter_cons_of_neg (by simp [other])]
  rfl

mutual

theorem hidden_convert {above : List Cst.Label} (reached : above.all (fun label => !label.isLeftOut) = true) (c : Cst) :
    (convert config source c).1 = hiddenTokens source (c.places above) := by
  cases c with
  | node label children =>
    rcases convert_cases config source label children with ⟨out, made⟩ | ⟨belongs, rfl, made⟩ | ⟨belongs, _, made⟩
    · rw [made, hiddenTokens_of_leftOut source children out reached]
    · rw [made, hiddenTokens_of_belongs source [] belongs]
      rfl
    · rw [made, hiddenTokens_of_belongs source children belongs]
      exact hidden_convertAll (by simpa [belongs] using reached) label.type children

theorem hidden_convertAll {above : List Cst.Label} (reached : above.all (fun label => !label.isLeftOut) = true)
    (parent : String) (cs : List Cst) :
    (convertAll config source parent cs).1 = hiddenTokens source (Cst.placesAll above cs) := by
  cases cs with
  | nil => rfl
  | cons c rest =>
    rw [convertAll_cons, Cst.placesAll, hiddenTokens_append, hidden_convert reached c,
      hidden_convertAll reached parent rest]

end

end Converting

section Making

open Text.Utf8 (Byte)

variable (config : Config) (source : List Byte)

/-- What conversion makes: terminals, nodes over what is left of their children, and nodes around statements. -/
inductive Made : Outline → Prop where
  | terminal (label : Cst.Label) : Made (label.terminal source)
  | composite (label : Cst.Label) {kept : List Outline} (parts : ∀ o ∈ kept, Made o) : Made (label.composite config kept)
  | statement {o : Outline} (part : Made o) : Made (statement o)

variable {config source}

theorem Made.children {o : Outline} (made : Made config source o) : ∀ child ∈ o.children, Made config source child := by
  cases made with
  | terminal label => exact nofun
  | @composite label kept parts =>
    obtain ⟨own, same, _⟩ := label.composite_eq config kept
    rw [same]
    exact parts
  | statement part =>
    intro child member
    rwa [List.mem_singleton.1 member]

theorem Made.adopted {o : Outline} (made : Made config source o) (parent type : String) :
    ∀ part ∈ adopted config parent type o, Made config source part := by
  unfold Java.adopted
  split
  next => exact made.children
  next =>
    split
    next =>
      intro part member
      rw [List.mem_singleton.1 member]
      exact .statement made
    next =>
      intro part member
      rwa [List.mem_singleton.1 member]

mutual

theorem made_convert {o : Outline} (c : Cst) (converted : (convert config source c).2 = some o) : Made config source o := by
  cases c with
  | node label children =>
    rcases convert_cases config source label children with ⟨_, given⟩ | ⟨_, rfl, given⟩ | ⟨_, _, given⟩
    · cases given ▸ converted
    · cases given ▸ converted
      exact .terminal label
    · cases given ▸ converted
      exact .composite label (made_convertAll label.type children)

theorem made_convertAll (parent : String) (cs : List Cst) :
    ∀ o ∈ (convertAll config source parent cs).2, Made config source o := by
  cases cs with
  | nil => exact nofun
  | cons c rest =>
    rw [convertAll_cons]
    intro o member
    rcases List.mem_append.1 member with first | later
    · cases converted : (convert config source c).2 with
      | none =>
        rw [converted] at first
        cases first
      | some whole =>
        rw [converted] at first
        exact (made_convert c converted).adopted parent c.label.type o first
    · exact made_convertAll parent rest o later

end

theorem Made.spelled (plain : ∀ type, config.kind type ≠ .terminal) {o : Outline} (made : Made config source o) :
    o.Spelled := by
  induction made with
  | terminal label => exact .token rfl
  | @composite label kept _ ih =>
    obtain ⟨own, same, kind, text, _⟩ := label.composite_eq config kept
    rw [same]
    exact .composite (kind ▸ plain label.type) text ih
  | statement _ ih =>
    refine .composite nofun rfl ?_
    intro child member
    rwa [List.mem_singleton.1 member]

/-- Only comments have a channel of their own. -/
theorem Made.channel {o : Outline} (made : Made config source o) : ∀ label ∈ o.labels, label.channel = 0 := by
  induction made with
  | terminal label =>
    intro own member
    rw [List.mem_singleton.1 member]
  | @composite label kept _ ih =>
    obtain ⟨own, same, _, _, channel⟩ := label.composite_eq config kept
    rw [same, Outline.labels]
    intro other member
    rcases List.mem_cons.1 member with rfl | below
    · exact channel
    · obtain ⟨o, inside, deeper⟩ := Outline.mem_labelsAll.1 below
      exact ih o inside other deeper
  | @statement o _ ih =>
    intro other member
    rw [Java.statement, Outline.placed, Outline.labels] at member
    rcases List.mem_cons.1 member with rfl | below
    · rfl
    · obtain ⟨o, inside, deeper⟩ := Outline.mem_labelsAll.1 below
      rw [List.mem_singleton.1 inside] at deeper
      exact ih other deeper

end Making

end Java
end Indentation
