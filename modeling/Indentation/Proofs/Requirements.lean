import Indentation.Registry.Configuration
import Mathlib.Data.List.Basic

/-! What the file at a path tells a load. There may be no file, or one that is malformed; a
value may be of a sort that cannot be asked what is in it, or lack required fields, which are
then named in their own order; otherwise the value is the configuration. What is at the path
tells exactly one of these. -/

namespace Indentation.Registry

/-- A name in a value: a key of an object, an item of a list or a part of a text. -/
inductive Occurs (name : String) : Value → Prop where
  | key {fields : Fields} {v : Value} (member : (name, v) ∈ fields) : Occurs name (.obj fields)
  | item {items : List Value} (member : .str name ∈ items) : Occurs name (.list items)
  | part {s : String} (inside : name.toList <:+: s.toList) : Occurs name (.str s)

/-- Whether a value can be asked what is in it. -/
def isAskable : Value → Bool
  | .obj _ => true
  | .list _ => true
  | .str _ => true
  | _ => false

theorem Occurs.isAskable {name : String} {v : Value} (occurs : Occurs name v) : isAskable v = true := by
  cases occurs with
  | _ => rfl

section Asking

variable {v : Value} {name : String}

theorem holds_eq_some_true_iff : holds v name = some true ↔ Occurs name v := by
  cases v with
  | obj fields =>
    rw [holds, Option.some_inj, List.any_eq_true]
    constructor
    · rintro ⟨⟨key, v⟩, member, same⟩
      cases of_decide_eq_true same
      exact .key member
    · intro occurs
      cases occurs with
      | key member => exact ⟨_, member, decide_eq_true rfl⟩
  | list items =>
    rw [holds, Option.some_inj, List.any_eq_true]
    constructor
    · rintro ⟨item, member, same⟩
      cases item with
      | str s =>
        cases of_decide_eq_true same
        exact .item member
      | _ => cases same
    · intro occurs
      cases occurs with
      | item member => exact ⟨_, member, decide_eq_true rfl⟩
  | str s =>
    rw [holds_str_iff]
    constructor
    · exact .part
    · intro occurs
      cases occurs with
      | part inside => exact inside
  | _ =>
    constructor
    · intro asked
      cases asked
    · intro occurs
      cases occurs

instance : Decidable (Occurs name v) := decidable_of_iff (holds v name = some true) holds_eq_some_true_iff

theorem isSome_holds (v : Value) (name : String) : (holds v name).isSome = isAskable v := by
  cases v with
  | _ => rfl

private theorem filterM_some (answer : String → Bool) (names : List String) :
    names.filterM (fun name => some (answer name)) = some (names.filter answer) := by
  have onward : ∀ names earlier, List.filterAuxM (fun name => some (answer name)) names earlier =
      some ((names.filter answer).reverse ++ earlier) := by
    intro names
    induction names with
    | nil => exact fun _ => rfl
    | cons name rest ih =>
      intro earlier
      rw [List.filterAuxM, Option.bind_eq_bind, Option.bind_some, ih]
      cases taken : answer name with
      | true => simp [taken]
      | false => simp [taken]
  rw [List.filterM, onward]
  simp

/-- The required fields that are not in a value. -/
def missing (v : Value) : List String := requiredFields.filter fun field => ¬ Occurs field v

theorem missing_eq_nil_iff : missing v = [] ↔ ∀ field ∈ requiredFields, Occurs field v := by
  rw [missing, List.filter_eq_nil_iff]
  simp only [decide_eq_true_eq, not_not]

theorem lacking_of_askable (sort : isAskable v = true) : lacking v = some (missing v) := by
  have asked : (fun field => (holds v field).map not) = fun field => some (decide ¬ Occurs field v) := by
    funext field
    obtain ⟨answer, found⟩ := Option.isSome_iff_exists.1 ((isSome_holds v field).trans sort)
    have occurs : Occurs field v ↔ answer = true := by rw [← holds_eq_some_true_iff, found, Option.some_inj]
    simp [found, occurs]
  rw [lacking, asked, filterM_some]
  rfl

theorem lacking_of_unaskable (sort : isAskable v = false) : lacking v = none := by
  have unanswered : holds v "name" = none := by
    rw [← Option.not_isSome_iff_eq_none, isSome_holds, sort]
    exact nofun
  rw [lacking, requiredFields, List.filterM, List.filterAuxM, unanswered]
  rfl

theorem not_whole_of_unaskable (sort : isAskable v = false) : ¬ ∀ field ∈ requiredFields, Occurs field v := by
  intro whole
  have named := whole "name" List.mem_cons_self
  cases sort.symm.trans named.isAskable

end Asking

/-- A value that is not filled in counts as an empty object. -/
def configured (v : Value) : Value := if v.isFilled then v else .obj []

/-- What is at a path, and what a load answers that has nothing else to go by. -/
inductive Tells (path : Path) : Except Files.Trouble (Option Files.Item) → Except Fault Value → Prop where
  | absent : Tells path (.ok none) (.error (.notFound path))
  | malformed {complaint : String → String} :
      Tells path (.ok (some (.file (.malformed complaint)))) (.error (.malformed path (complaint path.text)))
  | unaskable {v : Value} (sort : isAskable (configured v) = false) :
      Tells path (.ok (some (.file (.value v)))) (.error .wrongSort)
  | incomplete {v : Value} (sort : isAskable (configured v) = true) (lacks : missing (configured v) ≠ []) :
      Tells path (.ok (some (.file (.value v)))) (.error (.missing (missing (configured v)) path))
  | complete {v : Value} (whole : ∀ field ∈ requiredFields, Occurs field (configured v)) :
      Tells path (.ok (some (.file (.value v)))) (.ok (configured v))
  | directory : Tells path (.ok (some .directory)) (.error .isDirectory)
  | tooLong {trouble : Files.Trouble} : Tells path (.error trouble) (.error .tooLong)

namespace Tells

variable {path : Path} {item : Except Files.Trouble (Option Files.Item)}

/-- What is at a path tells one thing only. -/
theorem unique {first second : Except Fault Value} (one : Tells path item first) (other : Tells path item second) :
    first = second := by
  cases one with
  | absent => cases other with | absent => rfl
  | malformed => cases other with | malformed => rfl
  | directory => cases other with | directory => rfl
  | tooLong => cases other with | tooLong => rfl
  | unaskable sort =>
    cases other with
    | unaskable => rfl
    | incomplete askable => cases sort.symm.trans askable
    | complete whole => exact absurd whole (not_whole_of_unaskable sort)
  | incomplete askable lacks =>
    cases other with
    | unaskable sort => cases sort.symm.trans askable
    | incomplete => rfl
    | complete whole => exact absurd (missing_eq_nil_iff.2 whole) lacks
  | complete whole =>
    cases other with
    | unaskable sort => exact absurd whole (not_whole_of_unaskable sort)
    | incomplete _ lacks => exact absurd (missing_eq_nil_iff.2 whole) lacks
    | complete => rfl

/-- Only a complete configuration is loaded. -/
theorem complete_of_ok {config : Value} (told : Tells path item (.ok config)) :
    ∀ field ∈ requiredFields, Occurs field config := by
  cases told with
  | complete whole => exact whole

end Tells

theorem tells_configurationOf (path : Path) (content : Files.Content) :
    Tells path (.ok (some (.file content))) (configurationOf path content) := by
  cases content with
  | malformed => exact .malformed
  | value v =>
    rw [configurationOf, ← configured]
    cases sort : isAskable (configured v) with
    | false =>
      rw [lacking_of_unaskable sort]
      exact .unaskable sort
    | true =>
      rw [lacking_of_askable sort]
      cases lacks : missing (configured v) with
      | nil => exact .complete (missing_eq_nil_iff.1 lacks)
      | cons field rest =>
        have told : Tells path (.ok (some (.file (.value v)))) _ :=
          .incomplete sort (lacks ▸ List.cons_ne_nil field rest)
        rw [lacks] at told
        exact told

theorem tells_readConfiguration (files : Files) (path : Path) : Tells path (files.get? path) (readConfiguration files path) := by
  unfold readConfiguration
  cases files.get? path with
  | error trouble => exact .tooLong
  | ok item =>
    match item with
    | none => exact .absent
    | some .directory => exact .directory
    | some (.file content) => exact tells_configurationOf path content

end Indentation.Registry
