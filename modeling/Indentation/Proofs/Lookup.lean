import Indentation.Registry.Basic
import Mathlib.Data.List.Induction

/-! Looking up a plugin after any registrations. Each registration writes to two tables, the
languages by extension and the plugins by language. What stands in either is what the last
registration under the same key put there. An extension is only ever claimed by a language
that was registered just before, and no language is taken out again, so the way from an
extension through its language to a plugin never breaks off. -/

namespace Indentation

variable {α β κ : Type}

theorem Value.row?_texts (texts : List String) : (Value.list (texts.map .str)).row? = some texts := by
  have scalars : (texts.map Value.str).all isKey = true := by
    rw [List.all_map, List.all_eq_true]
    intro s _
    rfl
  change (if (texts.map Value.str).all isKey = true then some () else none).bind
    (fun _ => some ((texts.map Value.str).filterMap _)) = some texts
  rw [if_pos scalars, Option.bind_some, List.filterMap_map]
  exact congrArg some List.filterMap_some

theorem Table.find?_putAll [DecidableEq κ] (table : Table κ β) (keys : List κ) (value : β) (key : κ) :
    find? (keys.foldl (fun table key => put table key value) table) key =
      if key ∈ keys then some value else find? table key := by
  induction keys generalizing table with
  | nil => rfl
  | cons first rest ih =>
    rw [List.foldl_cons, ih, find?_put]
    by_cases later : key ∈ rest
    · simp [later]
    · simp [later, eq_comm]

theorem findRev?_concat (p : β → Bool) (earlier : List β) (last : β) :
    (earlier ++ [last]).findRev? p = if p last then some last else earlier.findRev? p := by
  rw [List.findRev?_eq_find?_reverse, List.findRev?_eq_find?_reverse, List.reverse_concat, List.find?_cons]
  cases p last with
  | true => rfl
  | false => rfl

theorem eraseDups_concat (earlier : List String) (name : String) :
    (earlier ++ [name]).eraseDups = if name ∈ earlier then earlier.eraseDups else earlier.eraseDups ++ [name] := by
  rw [List.eraseDups_append]
  by_cases known : name ∈ earlier
  · simp [List.removeAll, known]
  · simp [List.removeAll, known, List.eraseDups_cons]

namespace Keyed

/-- The keys in order, each with its first spelling. -/
def spellings (table : Keyed β) : List (Key × Value) := table.map fun entry => (entry.1, entry.2.1)

theorem spellings_put (table : Keyed β) (key : Key) (spelling : Value) (value : β) :
    spellings (put table key spelling value) =
      if key ∈ (spellings table).map (·.1) then spellings table else spellings table ++ [(key, spelling)] := by
  induction table with
  | nil => rfl
  | cons entry rest ih =>
    obtain ⟨name, old, last⟩ := entry
    rw [put, Table.find?, Table.put]
    by_cases same : name = key
    · simp [same, spellings]
    · have entries : spellings (((name, old, last) :: rest : Keyed β)) = (name, old) :: spellings rest := rfl
      rw [if_neg same, if_neg same, ← put, entries]
      simp only [List.map_cons, List.mem_cons, Ne.symm same, false_or]
      rw [spellings, List.map_cons, ← spellings, ih]
      exact apply_ite (List.cons (name, old)) _ _ _

section Gathering

variable {γ : Type} (name : γ → String) (value : γ → β)

/-- The values of a row of items, each put under the item's name. -/
def gathered (items : List γ) : Keyed β :=
  items.foldl (fun table item => put table (.text (name item)) (.str (name item)) (value item)) []

theorem gathered_concat (earlier : List γ) (item : γ) :
    gathered name value (earlier ++ [item]) =
      put (gathered name value earlier) (.text (name item)) (.str (name item)) (value item) := by
  rw [gathered, List.foldl_append]
  rfl

/-- Of several items with one name the last counts. -/
theorem find?_gathered (items : List γ) (key : String) :
    Table.find? (gathered name value items) (.text key) =
      (items.findRev? fun item => name item = key).map fun item => (.str key, value item) := by
  induction items using List.reverseRecOn generalizing key with
  | nil => rfl
  | append_singleton earlier item ih =>
    rw [gathered_concat, put, Table.find?_put, findRev?_concat, ih, ih]
    by_cases same : name item = key
    · subst same
      cases earlier.findRev? fun other => name other = name item with
      | none => simp
      | some other => simp
    · simp [same]

/-- A name stands where it first came. -/
theorem spellings_gathered (items : List γ) :
    spellings (gathered name value items) =
      (items.map name).eraseDups.map fun name => (.text name, .str name) := by
  induction items using List.reverseRecOn with
  | nil => rfl
  | append_singleton earlier item ih =>
    have known : Key.text (name item) ∈ (spellings (gathered name value earlier)).map (·.1) ↔
        name item ∈ earlier.map name := by
      rw [ih, List.map_map, ← List.mem_eraseDups]
      simp
    rw [gathered_concat, spellings_put, if_congr known rfl rfl, ih, List.map_append, List.map_singleton,
      eraseDups_concat, apply_ite (List.map _), List.map_append, List.map_singleton]

end Gathering

end Keyed

/-- What is registered: a language and extensions, all of them texts, and a front end. -/
structure Registration (α : Type) where
  language : String
  extensions : List String
  frontEnd : α

def Registration.plugin (r : Registration α) : Plugin α :=
  ⟨.str r.language, .list (r.extensions.map .str), r.frontEnd⟩

namespace Registry

def registerAll (registrations : List (Registration α)) : Action α Unit :=
  registrations.forM fun r => register r.plugin

theorem register_eq (r : Registration α) (registry : Registry α) :
    ∃ next, register r.plugin registry = .ok () next ∧
      next.plugins = Keyed.put registry.plugins (.text r.language) (.str r.language) r.plugin ∧
      next.claims =
        r.extensions.foldl (fun claims extension => Table.put claims extension (.text r.language)) registry.claims := by
  have texts : r.plugin.extensions.row? = some r.extensions := Value.row?_texts r.extensions
  -- The registry that is asked for the language is the one that the action is run on.
  change ∃ next, (if Table.has registry.plugins (.text r.language) then _ else _ : Action α Unit) registry =
    .ok () next ∧ _
  split
  next =>
    rw [texts]
    exact ⟨_, rfl, rfl, rfl⟩
  next =>
    rw [texts]
    exact ⟨_, rfl, rfl, rfl⟩

/-- What stands in a registry after some registrations. -/
structure Records (registrations : List (Registration α)) (registry : Registry α) : Prop where
  claims : ∀ extension, Table.find? registry.claims extension =
    (registrations.findRev? fun r => extension ∈ r.extensions).map fun r => .text r.language
  plugins : registry.plugins = Keyed.gathered (·.language) (·.plugin) registrations

theorem records_empty : Records [] ({} : Registry α) := ⟨fun _ => rfl, rfl⟩

/-- One more registration. -/
theorem Records.register {registrations : List (Registration α)} {registry : Registry α}
    (records : Records registrations registry) (r : Registration α) :
    ∃ next, register r.plugin registry = .ok () next ∧ Records (registrations ++ [r]) next := by
  obtain ⟨next, ran, plugins, claims⟩ := register_eq r registry
  refine ⟨next, ran, ?_, ?_⟩
  · intro extension
    rw [claims, Table.find?_putAll, findRev?_concat, records.claims]
    by_cases listed : extension ∈ r.extensions
    · simp [listed]
    · simp [listed]
  · rw [plugins, records.plugins, Keyed.gathered_concat]

theorem records_registerAll (registrations : List (Registration α)) :
    ∃ registry, registerAll registrations {} = .ok () registry ∧ Records registrations registry := by
  have onward : ∀ later earlier (registry : Registry α), Records earlier registry →
      ∃ next, registerAll later registry = .ok () next ∧ Records (earlier ++ later) next := by
    intro later
    induction later with
    | nil =>
      intro earlier registry records
      exact ⟨registry, rfl, by rwa [List.append_nil]⟩
    | cons r rest ih =>
      intro earlier registry records
      obtain ⟨middle, ran, extended⟩ := records.register r
      obtain ⟨next, finished, all⟩ := ih _ _ extended
      refine ⟨next, ?_, by rwa [List.append_assoc] at all⟩
      change (do register r.plugin; registerAll rest : Action α Unit) registry = _
      simp only [bind, EStateM.bind, ran]
      exact finished
  exact onward registrations [] {} records_empty

namespace Records

variable {registrations : List (Registration α)} {registry : Registry α}

/-- Whoever claims an extension registers its language along with it. -/
theorem exists_last {extension : String} {claimant : Registration α}
    (found : registrations.findRev? (fun r => extension ∈ r.extensions) = some claimant) :
    ∃ last, registrations.findRev? (fun r => r.language = claimant.language) = some last := by
  rw [List.findRev?_eq_find?_reverse] at found
  rw [← Option.isSome_iff_exists, List.findRev?_eq_find?_reverse, List.find?_isSome]
  exact ⟨claimant, List.mem_of_find?_eq_some found, decide_eq_true rfl⟩

theorem isRegistered (records : Records registrations registry) {extension : String} {language : Key}
    (claimed : Table.find? registry.claims extension = some language) : Table.has registry.plugins language = true := by
  rw [records.claims] at claimed
  obtain ⟨claimant, found, rfl⟩ := Option.map_eq_some_iff.1 claimed
  obtain ⟨last, registered⟩ := exists_last found
  rw [Table.has, records.plugins, Keyed.find?_gathered, registered]
  rfl

theorem pluginFor_of_claimed (records : Records registrations registry) {path : String} {claimant last : Registration α}
    (found : registrations.findRev? (fun r => (Path.parse path).suffix ∈ r.extensions) = some claimant)
    (registered : registrations.findRev? (fun r => r.language = claimant.language) = some last) :
    registry.pluginFor path = some last.plugin := by
  unfold pluginFor
  rw [records.claims, found]
  change (Table.find? registry.plugins (.text claimant.language)).bind (fun entry => some entry.2) = _
  rw [records.plugins, Keyed.find?_gathered, registered]
  rfl

theorem pluginFor_eq_none_iff (records : Records registrations registry) {path : String} :
    registry.pluginFor path = none ↔ ∀ r ∈ registrations, (Path.parse path).suffix ∉ r.extensions := by
  have unclaimed : registry.pluginFor path = none ↔
      registrations.findRev? (fun r => (Path.parse path).suffix ∈ r.extensions) = none := by
    cases found : registrations.findRev? fun r => (Path.parse path).suffix ∈ r.extensions with
    | none =>
      refine iff_of_true ?_ rfl
      unfold pluginFor
      rw [records.claims, found]
      rfl
    | some claimant =>
      obtain ⟨last, registered⟩ := exists_last found
      rw [records.pluginFor_of_claimed found registered]
      exact iff_of_false nofun nofun
  rw [unclaimed, List.findRev?_eq_find?_reverse, List.find?_eq_none]
  simp only [List.mem_reverse, decide_eq_true_eq]

theorem languages_eq (records : Records registrations registry) :
    registry.languages = (registrations.map (·.language)).eraseDups.map .str := by
  have spelled : registry.languages = (Keyed.spellings registry.plugins).map (·.2) := by
    rw [languages, Keyed.entries, Keyed.spellings, List.map_map, List.map_map]
    rfl
  rw [spelled, records.plugins, Keyed.spellings_gathered, List.map_map]
  rfl

end Records

/-- A look-up notes something at most. -/
theorem find_eq (registry : Registry α) (path : String) :
    ∃ log, find path registry = .ok (registry.pluginFor path) { registry with log := log } := by
  have current : (get : Action α (Registry α)) registry = .ok registry registry := rfl
  simp only [find, bind, EStateM.bind, current]
  cases registry.pluginFor path with
  | none => exact ⟨_, rfl⟩
  | some plugin => exact ⟨registry.log, rfl⟩

/-- Looking up a file after any registrations. Every language that claims an extension is
registered, so the look-up ends with an answer, and there is none just if no registration
lists the extension of the file. Otherwise the last one that lists it names a language, and
the answer is what was last registered for that language. The languages stand in the order in
which they first came, each once. -/
theorem find_after_registrations (registrations : List (Registration α)) (path : String) :
    ∃ registry answer log,
      registerAll registrations {} = .ok () registry ∧
      (∀ extension language, Table.find? registry.claims extension = some language →
        Table.has registry.plugins language = true) ∧
      find path registry = .ok answer { registry with log := log } ∧
      (answer = none ↔ ∀ r ∈ registrations, (Path.parse path).suffix ∉ r.extensions) ∧
      (∀ claimant, registrations.findRev? (fun r => (Path.parse path).suffix ∈ r.extensions) = some claimant →
        ∃ last, registrations.findRev? (fun r => r.language = claimant.language) = some last ∧
          answer = some last.plugin) ∧
      registry.languages = (registrations.map (·.language)).eraseDups.map .str := by
  obtain ⟨registry, registered, records⟩ := records_registerAll registrations
  obtain ⟨log, answered⟩ := find_eq registry path
  refine ⟨registry, registry.pluginFor path, log, registered, fun _ _ => records.isRegistered, answered,
    records.pluginFor_eq_none_iff, ?_, records.languages_eq⟩
  intro claimant found
  obtain ⟨last, named⟩ := Records.exists_last found
  exact ⟨last, named, records.pluginFor_of_claimed found named⟩

end Registry
end Indentation
