import Indentation.Options

/-! What a configuration means, whatever it holds. Options are made of a size and a unit and
are refused where either is unusable. One way of making them is caught when it is refused, and
the others are never refused, so every configuration has options, and their step is positive.
A size given as a rule means what it means as a setting, and options read back from a
configuration that names them. -/

namespace Indentation.Options

theorem getD_spaces?_of_pos {size : Int} (pos : 0 < size) :
    (spaces? size).getD fallback = ⟨size, .spaces, pos⟩ := by
  rw [spaces?, dif_pos pos, Option.getD_some]

theorem getD_spaces?_of_not_pos {size : Int} (small : ¬ 0 < size) : (spaces? size).getD fallback = fallback := by
  rw [spaces?, dif_neg small, Option.getD_none]

namespace Staged

/-- Options made of named values, where nothing falls back. -/
def make (fields : Fields) : Except Schema.Invalid Options := (read { fields }).toExcept "IndentOptions"

def sized (size unit : Value) : Fields := [("indent_size", size), ("indent_unit", unit)]

/-- Only what is made of the given size and unit is caught when it is refused. -/
def chosen : (unit size : Value) → Except Schema.Invalid Options
  | .str "tabs", _ => make (sized (.int 1) (.str "tabs"))
  | unit, .int size => tryCatch (make (sized (.int size) unit)) fun _ => make []
  | _, _ => make []

def ofSettings : Value → Except Schema.Invalid Options
  | .obj fields =>
    chosen (setting fields "indentUnit" "indent_unit" (.str "spaces"))
      (setting fields "indentSize" "indent_size" (.int 4))
  | _ => make []

def ofRules (config : Value) : Except Schema.Invalid Options :=
  match (config.get? "rules").bind (·.get? "indent") with
  | some (.list [_, .str "tabs"]) => make (sized (.int 1) (.str "tabs"))
  | some (.list [_, .int size]) => if 0 < size then make (sized (.int size) (.str "spaces")) else make []
  | _ => make []

def ofConfig (config : Value) : Except Schema.Invalid Options :=
  if (config.get? "rules").isSome then ofRules config else ofSettings config

theorem make_nil : make [] = .ok fallback := rfl

theorem make_tabs : make (sized (.int 1) (.str "tabs")) = .ok tabs := rfl

theorem make_sized (size : Int) (unit : Value) :
    make (sized (.int size) unit) =
      ((fun size unit => (⟨size.val, unit, size.property⟩ : Options))
        <$> (positive (.int size)).under (.name "indent_size")
        <*> (Schema.Read.choice IndentUnit.choices unit).under (.name "indent_unit")).toExcept "IndentOptions" := rfl

theorem make_spaces {size : Int} (pos : 0 < size) :
    make (sized (.int size) (.str "spaces")) = .ok ⟨size, .spaces, pos⟩ := by
  have accepted : positive (.int size) = .accepted ⟨size, pos⟩ := by
    simp [positive, Schema.Read.integer, Schema.Verdict.andThen, pos]
  rw [make_sized, accepted]
  rfl

theorem exists_invalid_of_size {size : Int} (small : ¬ 0 < size) (unit : Value) :
    ∃ report, make (sized (.int size) unit) = .error report := by
  have refused : ∃ refusals, positive (.int size) = .refused refusals := by
    simp [positive, Schema.Read.integer, Schema.Verdict.andThen, small]
  obtain ⟨refusals, refused⟩ := refused
  rw [make_sized, refused]
  cases Schema.Read.choice IndentUnit.choices unit with
  | accepted unit => exact ⟨_, rfl⟩
  | refused others => exact ⟨_, rfl⟩

theorem exists_invalid_of_unit (size : Int) {unit : Value} (spaces : unit ≠ .str "spaces")
    (tabs : unit ≠ .str "tabs") : ∃ report, make (sized (.int size) unit) = .error report := by
  have refused : ∃ refusals, Schema.Read.choice IndentUnit.choices unit = .refused refusals := by
    cases unit with
    | str name =>
      have first : "spaces" ≠ name := fun same => spaces (congrArg Value.str same.symm)
      have second : "tabs" ≠ name := fun same => tabs (congrArg Value.str same.symm)
      simp only [Schema.Read.choice, IndentUnit.choices, first, second, List.find?_cons, decide_false, List.find?_nil,
        Option.map_none]
      exact ⟨_, rfl⟩
    | _ => exact ⟨_, rfl⟩
  obtain ⟨refusals, refused⟩ := refused
  rw [make_sized, refused]
  cases positive (.int size) with
  | accepted value => exact ⟨_, rfl⟩
  | refused others => exact ⟨_, rfl⟩

theorem chosen_eq (unit size : Value) :
    chosen unit size =
      .ok (match unit, size with
        | .str "tabs", _ => tabs
        | .str "spaces", .int size => (spaces? size).getD fallback
        | _, _ => fallback) := by
  unfold chosen
  split
  next => exact make_tabs
  next size other =>
    by_cases spaces : unit = .str "spaces"
    · subst spaces
      change _ = Except.ok ((spaces? size).getD fallback)
      by_cases pos : 0 < size
      · rw [make_spaces pos, getD_spaces?_of_pos pos]
        rfl
      · obtain ⟨report, refused⟩ := exists_invalid_of_size pos (.str "spaces")
        rw [refused, getD_spaces?_of_not_pos pos]
        exact make_nil
    · obtain ⟨report, refused⟩ := exists_invalid_of_unit size spaces other
      rw [refused]
      split
      next => exact absurd rfl other
      next => exact absurd rfl spaces
      next => exact make_nil
  next other whole =>
    split
    next => exact absurd rfl other
    next size => exact absurd rfl (whole size)
    next => exact make_nil

theorem ofSettings_eq (v : Value) : ofSettings v = .ok (Options.ofSettings v) := by
  cases v with
  | obj fields => exact chosen_eq _ _
  | _ => exact make_nil

theorem ofRules_eq (config : Value) : ofRules config = .ok (Options.ofRules config) := by
  unfold Options.ofRules
  split
  next severity found =>
    rw [ofRules, found]
    exact make_tabs
  next severity size found =>
    rw [ofRules, found]
    dsimp only
    by_cases pos : 0 < size
    · rw [if_pos pos, make_spaces pos, getD_spaces?_of_pos pos]
    · rw [if_neg pos, getD_spaces?_of_not_pos pos]
      exact make_nil
  next tabs sized =>
    unfold ofRules
    split
    next severity found => exact absurd found (tabs severity)
    next severity size found => exact absurd found (sized severity size)
    next => exact make_nil

theorem ofConfig_eq (config : Value) : ofConfig config = .ok (Options.ofConfig config) := by
  unfold ofConfig Options.ofConfig
  split
  next => exact ofRules_eq config
  next => exact ofSettings_eq config

end Staged

/-- A size means the same as a rule and as a setting. -/
theorem ofConfig_of_rule {v : Value} (other : v ≠ .str "tabs") (severity : Value) :
    ofConfig (.obj [("rules", .obj [("indent", .list [severity, v])])]) = ofConfig (.obj [("indentSize", v)]) := by
  cases v with
  | str name =>
    have unknown : name ≠ "tabs" := fun same => other (congrArg Value.str same)
    simp [ofConfig, ofRules, ofSettings, setting, Value.get?, Table.find?, unknown]
  | _ => rfl

theorem setting_of_find? {fields : Fields} {name : String} {v : Value} (found : Table.find? fields name = some v)
    (other : String) (otherwise : Value) : setting fields name other otherwise = v := by
  rw [setting, found, Option.getD_some]

theorem ofConfig_of_tabs {fields : Fields} (plain : Table.find? fields "rules" = none)
    (unit : Table.find? fields "indentUnit" = some (.str "tabs")) : ofConfig (.obj fields) = tabs := by
  have settings : ofConfig (.obj fields) = ofSettings (.obj fields) := by
    simp [ofConfig, Value.get?, plain]
  rw [settings, ofSettings, setting_of_find? unit]
  rfl

theorem ofConfig_read_back (o : Options) :
    (ofConfig (.obj [("indentSize", .int o.size), ("indentUnit", .str o.unit.name)])).unit = o.unit ∧
      (ofConfig (.obj [("indentSize", .int o.size), ("indentUnit", .str o.unit.name)])).step = o.step := by
  obtain ⟨size, unit, pos⟩ := o
  cases unit with
  | tabs => exact ⟨rfl, rfl⟩
  | spaces =>
    have same : ofConfig (.obj [("indentSize", .int size), ("indentUnit", .str "spaces")]) = ⟨size, .spaces, pos⟩ :=
      getD_spaces?_of_pos pos
    exact ⟨congrArg unit same, congrArg step same⟩

/-- Every configuration has options, with a step of one column at least. A rule says the same as
the setting of its size, or of tabs. Options are read back with their unit and their step. Where
tabs are set, the size does not matter. -/
theorem ofConfig_forms_agree :
    (∀ config, Staged.ofConfig config = .ok (ofConfig config) ∧ 1 ≤ (ofConfig config).step) ∧
    (∀ severity v, v ≠ .str "tabs" →
      ofConfig (.obj [("rules", .obj [("indent", .list [severity, v])])]) = ofConfig (.obj [("indentSize", v)])) ∧
    (∀ severity, ofConfig (.obj [("rules", .obj [("indent", .list [severity, .str "tabs"])])]) =
      ofConfig (.obj [("indentUnit", .str "tabs")])) ∧
    (∀ o : Options,
      (ofConfig (.obj [("indentSize", .int o.size), ("indentUnit", .str o.unit.name)])).unit = o.unit ∧
        (ofConfig (.obj [("indentSize", .int o.size), ("indentUnit", .str o.unit.name)])).step = o.step) ∧
    ∀ fields, Table.find? fields "rules" = none → Table.find? fields "indentUnit" = some (.str "tabs") →
      (ofConfig (.obj fields)).step = 1 := by
  refine ⟨?_, ?_, ?_, ofConfig_read_back, ?_⟩
  · intro config
    exact ⟨Staged.ofConfig_eq config, step_pos _⟩
  · intro severity v other
    exact ofConfig_of_rule other severity
  · intro severity
    rfl
  · intro fields plain unit
    rw [ofConfig_of_tabs plain unit]
    rfl

theorem ofConfig_forms_agree_malformed :
    ofConfig (.obj [("rules", .obj [("indent", .list [.null, .bool true])])]) =
        ofConfig (.obj [("indentSize", .bool true)]) ∧
      (ofConfig (.obj [("indentSize", .list [.int (-3)]), ("indentUnit", .str "tabs")])).step = 1 := by
  obtain ⟨_, rules, _, _, units⟩ := ofConfig_forms_agree
  exact ⟨rules .null (.bool true) nofun, units _ rfl rfl⟩

end Indentation.Options
