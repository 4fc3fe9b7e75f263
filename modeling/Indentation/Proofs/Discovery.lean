import Indentation.Proofs.Listing
import Indentation.Proofs.Loading
import Indentation.Proofs.Lookup

/-! Discovering the plugins below a directory, in a registry that has served any requests
before. The configurations are loaded one after the other, and what was loaded earlier, from
files that may have changed since, counts for more than the files. A load that fails leaves its
directory out and is noted once. The plugins that are found stand in the order in which their
names first came, each with the last path of that name; and whatever is asked of the registry
later, a load of such a path gives a configuration of that name. -/

namespace Indentation.Registry

variable {α : Type}

/-- What a registry is asked, with the files as they are at the time. -/
inductive Request (α : Type) where
  | register (plugin : Plugin α)
  | find (path : String)
  | load (files : Files) (path : Path)
  | discover (files : Files) (directory : Path)

/-- What a request leaves behind, also where it fails. -/
def after (registry : Registry α) : Request α → Registry α
  | .register plugin => leftBy (register plugin) registry
  | .find path => leftBy (find path) registry
  | .load files path => leftBy (load files path) registry
  | .discover files directory => leftBy (discover files directory) registry

def afterAll (registry : Registry α) (requests : List (Request α)) : Registry α := requests.foldl after registry

theorem cache_register (plugin : Plugin α) (registry : Registry α) :
    (leftBy (register plugin) registry).cache = registry.cache := by
  have current : (get : Action α (Registry α)) registry = .ok registry registry := rfl
  unfold leftBy register
  cases plugin.language.key? with
  | none => rfl
  | some language =>
    simp only [bind, EStateM.bind, current]
    cases Table.has registry.plugins language with
    | true =>
      cases plugin.extensions.row? with
      | none => rfl
      | some extensions => rfl
    | false =>
      cases plugin.extensions.row? with
      | none => rfl
      | some extensions => rfl

namespace Keeps

variable {history : List Load} {registry : Registry α}

theorem request (keeps : Keeps history registry) (request : Request α) :
    ∃ more, Keeps (history ++ more) (registry.after request) := by
  cases request with
  | register plugin =>
    refine ⟨[], ?_⟩
    rw [List.append_nil]
    exact keeps.of_cache (cache_register plugin registry)
  | find path =>
    obtain ⟨log, found⟩ := find_eq registry path
    refine ⟨[], ?_⟩
    rw [List.append_nil, Registry.after, leftBy, found]
    exact keeps.of_cache rfl
  | load files path => exact ⟨_, keeps.load files path⟩
  | discover files directory => exact ⟨_, keeps.discover files directory⟩

theorem requests (keeps : Keeps history registry) (requests : List (Request α)) :
    ∃ more, Keeps (history ++ more) (registry.afterAll requests) := by
  induction requests generalizing history registry with
  | nil =>
    refine ⟨[], ?_⟩
    rw [List.append_nil]
    exact keeps
  | cons request rest ih =>
    obtain ⟨first, one⟩ := keeps.request request
    obtain ⟨more, all⟩ := ih one
    refine ⟨first ++ more, ?_⟩
    rw [← List.append_assoc]
    exact all

/-- What is kept once stays, whatever is asked. -/
theorem find?_afterAll (keeps : Keeps history registry) {key : String} {config : Value}
    (kept : Table.find? registry.cache key = some config) (requests : List (Request α)) :
    Table.find? (registry.afterAll requests).cache key = some config := by
  obtain ⟨more, later⟩ := keeps.requests requests
  rw [later.first, List.findSome?_append, ← keeps.first, kept]
  rfl

end Keeps

/-! ## What one configuration adds -/

section Loading

variable {files : Files} {path : Path} {registry : Registry α}

theorem load_of_kept {config : Value} (kept : Table.find? registry.cache path.text = some config) :
    load files path registry = .ok config registry := by
  rcases load_cases files path registry with ⟨_, found, loaded⟩ | ⟨nothing, _⟩
  · cases kept.symm.trans found
    exact loaded
  · cases kept.symm.trans nothing

theorem answerOf_load_of_kept {config : Value} (kept : Table.find? registry.cache path.text = some config) :
    answerOf (load files path) registry = .ok config := by
  rw [answerOf, load_of_kept kept]

/-- Only what is kept under the path's own text matters to a load. -/
theorem answerOf_load_congr {next : Registry α}
    (same : Table.find? next.cache path.text = Table.find? registry.cache path.text) :
    answerOf (load files path) next = answerOf (load files path) registry := by
  cases kept : Table.find? registry.cache path.text with
  | none => rw [answerOf_load kept, answerOf_load (same.trans kept)]
  | some config => rw [answerOf_load_of_kept kept, answerOf_load_of_kept (same.trans kept)]

/-- A load that succeeds notes nothing, and keeps its answer. -/
theorem load_of_answer {config : Value} (loaded : answerOf (load files path) registry = .ok config) :
    ∃ next, load files path registry = .ok config next ∧ next.log = registry.log ∧
      ∀ key, Table.find? next.cache key = if path.text = key then some config else Table.find? registry.cache key := by
  rw [answerOf] at loaded
  rcases load_cases files path registry with ⟨_, kept, ran⟩ | ⟨_, ⟨_, _, ran⟩ | ⟨_, _, failed⟩⟩
  · rw [ran] at loaded
    cases loaded
    refine ⟨registry, ran, rfl, ?_⟩
    intro key
    split
    next same => rw [← same, kept]
    next => rfl
  · rw [ran] at loaded
    cases loaded
    exact ⟨_, ran, rfl, fun key => Table.find?_put _ _ key _⟩
  · rw [failed] at loaded
    cases loaded

theorem load_of_fault {fault : Fault} (failed : answerOf (load files path) registry = .error fault) :
    load files path registry = .error fault (registry.noteMalformed fault) := by
  rw [answerOf] at failed
  rcases load_cases files path registry with ⟨_, _, ran⟩ | ⟨_, ⟨_, _, ran⟩ | ⟨_, _, stopped⟩⟩
  · rw [ran] at failed
    cases failed
  · rw [ran] at failed
    cases failed
  · rw [stopped] at failed
    cases failed
    exact stopped

end Loading

/-- What a load of a configuration may give: a plugin with a text for its name, or a fault that
leaves it out. -/
inductive Usable (path : Path) : Except Fault Value → Prop where
  | plugin {config version : Value} {name : String} (named : config.get? "name" = some (.str name))
      (versioned : config.get? "version" = some version) : Usable path (.ok config)
  | malformed {complaint : String} : Usable path (.error (.malformed path complaint))
  | incomplete {fields : List String} (lacks : fields ≠ []) : Usable path (.error (.missing fields path))

/-- The plugin that a load names. -/
def pluginAt? (path : Path) : Except Fault Value → Option (String × Path)
  | .ok config =>
    match config.get? "name" with
    | some (.str name) => some (name, path)
    | _ => none
  | .error _ => none

def skipNote (path : Path) (fault : Fault) : Log.Entry :=
  ⟨Log.Level.error, logger, "Skipping plugin in " ++ path.parent.text ++ ": " ++ fault.message, [], none⟩

/-- What is noted of a plugin that is left out. -/
def skipNote? (path : Path) : Except Fault Value → Option Log.Entry
  | .ok _ => none
  | .error fault => some (skipNote path fault)

def isSkipNote (entry : Log.Entry) : Bool :=
  entry.level = Log.Level.error && "Skipping plugin".toList.isPrefixOf entry.message.toList

theorem isSkipNote_skipNote (path : Path) (fault : Fault) : isSkipNote (skipNote path fault) = true := by
  have opening : "Skipping plugin in " = "Skipping plugin" ++ " in " := rfl
  have front : "Skipping plugin".toList <+: (skipNote path fault).message.toList := by
    simp only [skipNote, opening, String.toList_append, List.append_assoc]
    exact List.prefix_append _ _
  rw [isSkipNote, Bool.and_eq_true, List.isPrefixOf_iff_prefix]
  exact ⟨rfl, front⟩

/-- The fault of a malformed file is noted, but not as a plugin that is left out. -/
theorem log_noteMalformed (registry : Registry α) (fault : Fault) :
    ∃ added, (registry.noteMalformed fault).log = registry.log ++ added ∧ added.filter isSkipNote = [] := by
  cases fault with
  | malformed path complaint =>
    refine ⟨_, rfl, ?_⟩
    simp [isSkipNote]
  | _ => exact ⟨[], (List.append_nil _).symm, rfl⟩

/-- What discovering one configuration leaves in a registry. -/
structure Adds (files : Files) (path : Path) (registry next : Registry α) : Prop where
  kept : ∀ config, answerOf (load files path) registry = .ok config → Table.find? next.cache path.text = some config
  same : answerOf (load files path) next = answerOf (load files path) registry
  others : ∀ key, key ≠ path.text → Table.find? next.cache key = Table.find? registry.cache key
  noted : ∃ added, next.log = registry.log ++ added ∧
    added.filter isSkipNote = (skipNote? path (answerOf (load files path) registry)).toList

section Step

variable {files : Files} {path : Path} {registry : Registry α} (found : Keyed Path)

theorem discoverAll_loaded {config version : Value} {name : String}
    (loaded : answerOf (load files path) registry = .ok config) (named : config.get? "name" = some (.str name))
    (versioned : config.get? "version" = some version) :
    ∃ next, discoverAll files found [path] registry = .ok (Keyed.put found (.text name) (.str name) path) next ∧
      Adds files path registry next := by
  obtain ⟨kept, ran, quiet, cache⟩ := load_of_answer loaded
  have held : Table.find? kept.cache path.text = some config := by rw [cache, if_pos rfl]
  refine ⟨kept.note Log.Level.info ("Found plugin configuration: " ++ name ++ " v" ++ version.display), ?_, ?_, ?_, ?_, ?_⟩
  · simp only [discoverAll, ran, bind, EStateM.bind, addFound, named, versioned]
    rfl
  · intro other answer
    cases loaded.symm.trans answer
    exact held
  · rw [loaded]
    exact answerOf_load_of_kept held
  · intro key other
    exact (cache key).trans (if_neg other.symm)
  · refine ⟨_, congrArg (· ++ _) quiet, ?_⟩
    rw [loaded]
    rfl

theorem discoverAll_skipped {fault : Fault} (failed : answerOf (load files path) registry = .error fault)
    (skipped : isSkipped fault = true) :
    ∃ next, discoverAll files found [path] registry = .ok found next ∧ Adds files path registry next := by
  have unchanged := cache_noteMalformed registry fault
  obtain ⟨added, noted, none⟩ := log_noteMalformed registry fault
  refine ⟨{ registry.noteMalformed fault with
    log := (registry.noteMalformed fault).log ++ [skipNote path fault] }, ?_, ?_, ?_, ?_, ?_⟩
  · simp only [discoverAll, load_of_fault failed, skipped, if_true]
    rfl
  · intro config answer
    cases failed.symm.trans answer
  · exact answerOf_load_congr (congrArg (Table.find? · path.text) unchanged)
  · intro key _
    exact congrArg (Table.find? · key) unchanged
  · refine ⟨added ++ [skipNote path fault], ?_, ?_⟩
    · rw [← List.append_assoc, ← noted]
    · rw [List.filter_append, none, failed]
      simp [isSkipNote_skipNote, skipNote?]

theorem discoverAll_usable (usable : Usable path (answerOf (load files path) registry)) :
    ∃ more next, discoverAll files found [path] registry = .ok more next ∧ Adds files path registry next ∧
      more = (pluginAt? path (answerOf (load files path) registry)).elim found
        fun plugin => Keyed.put found (.text plugin.1) (.str plugin.1) plugin.2 := by
  generalize answer : answerOf (load files path) registry = outcome at usable
  cases usable with
  | plugin named versioned =>
    obtain ⟨next, ran, adds⟩ := discoverAll_loaded found answer named versioned
    refine ⟨_, next, ran, adds, ?_⟩
    rw [pluginAt?, named]
    rfl
  | malformed =>
    obtain ⟨next, ran, adds⟩ := discoverAll_skipped found answer rfl
    exact ⟨_, next, ran, adds, rfl⟩
  | incomplete lacks =>
    obtain ⟨next, ran, adds⟩ := discoverAll_skipped found answer rfl
    exact ⟨_, next, ran, adds, rfl⟩

end Step

/-! ## What a whole discovery gives -/

section Run

variable {files : Files} {registry : Registry α}

private theorem filterMap_concat {β γ : Type} (f : β → Option γ) (earlier : List β) (last : β) :
    (earlier ++ [last]).filterMap f = earlier.filterMap f ++ (f last).toList := by
  rw [List.filterMap_append]
  cases found : f last with
  | none => simp [found]
  | some value => simp [found]

/-- After some of the paths of a discovery, told by what a load of each gave at the start. -/
structure Discovered (files : Files) (registry : Registry α) (paths done : List Path) (found : Keyed Path)
    (next : Registry α) : Prop where
  found : found = Keyed.gathered (·.1) (·.2) (done.filterMap fun path => pluginAt? path (answerOf (load files path) registry))
  noted : ∃ added, next.log = registry.log ++ added ∧
    added.filter isSkipNote = done.filterMap fun path => skipNote? path (answerOf (load files path) registry)
  kept : ∀ path ∈ done, ∀ config, answerOf (load files path) registry = .ok config →
    Table.find? next.cache path.text = some config
  same : ∀ path ∈ paths, answerOf (load files path) next = answerOf (load files path) registry

theorem Discovered.start (files : Files) (registry : Registry α) (paths : List Path) :
    Discovered files registry paths [] [] registry :=
  ⟨rfl, ⟨[], (List.append_nil _).symm, rfl⟩, nofun, fun _ _ => rfl⟩

/-- One more path. -/
theorem Discovered.step {paths done : List Path} {found : Keyed Path} {next : Registry α}
    (discovered : Discovered files registry paths done found next)
    (apart : ∀ path ∈ paths, ∀ other ∈ paths, path.text = other.text → path = other)
    (within : done ⊆ paths) {path : Path} (member : path ∈ paths)
    (usable : Usable path (answerOf (load files path) registry)) :
    ∃ more last, discoverAll files found [path] next = .ok more last ∧
      Discovered files registry paths (done ++ [path]) more last := by
  have answer := discovered.same path member
  rw [← answer] at usable
  obtain ⟨more, last, ran, adds, put⟩ := discoverAll_usable found usable
  rw [answer] at put
  refine ⟨more, last, ran, ?_, ?_, ?_, ?_⟩
  · rw [put, filterMap_concat, discovered.found]
    cases pluginAt? path (answerOf (load files path) registry) with
    | none => exact congrArg _ (List.append_nil _).symm
    | some plugin => exact (Keyed.gathered_concat _ _ _ _).symm
  · obtain ⟨before, logged, earlier⟩ := discovered.noted
    obtain ⟨added, extended, skipped⟩ := adds.noted
    refine ⟨before ++ added, ?_, ?_⟩
    · rw [extended, logged, List.append_assoc]
    · rw [List.filter_append, earlier, skipped, answer, filterMap_concat]
  · intro other listed config loaded
    by_cases same : other.text = path.text
    · have inside : other ∈ paths := by
        rcases List.mem_append.1 listed with old | new
        · exact within old
        · exact List.mem_singleton.1 new ▸ member
      cases apart other inside path member same
      exact adds.kept config (answer.trans loaded)
    · rw [adds.others _ same]
      rcases List.mem_append.1 listed with old | new
      · exact discovered.kept other old config loaded
      · exact absurd (congrArg Path.text (List.mem_singleton.1 new)) same
  · intro other inside
    by_cases same : other.text = path.text
    · cases apart other inside path member same
      exact adds.same.trans answer
    · exact (answerOf_load_congr (adds.others _ same)).trans (discovered.same other inside)

theorem Discovered.run {paths : List Path}
    (apart : ∀ path ∈ paths, ∀ other ∈ paths, path.text = other.text → path = other)
    (usable : ∀ path ∈ paths, Usable path (answerOf (load files path) registry)) (later : List Path) :
    ∀ (done : List Path) (found : Keyed Path) (next : Registry α), done ++ later = paths →
      Discovered files registry paths done found next →
      ∃ more last, discoverAll files found later next = .ok more last ∧
        Discovered files registry paths paths more last := by
  induction later with
  | nil =>
    intro done found next whole discovered
    rw [List.append_nil] at whole
    exact ⟨found, next, rfl, whole ▸ discovered⟩
  | cons path rest ih =>
    intro done found next whole discovered
    have member : path ∈ paths := whole ▸ List.mem_append_right _ List.mem_cons_self
    have within : done ⊆ paths := whole ▸ List.subset_append_left _ _
    obtain ⟨more, middle, ran, one⟩ := discovered.step apart within member (usable path member)
    obtain ⟨all, last, finished, every⟩ := ih _ more middle (by rw [List.append_assoc]; exact whole) one
    refine ⟨all, last, ?_, every⟩
    rw [discoverAll_cons, ran]
    exact finished

end Run

/-! ## Which configurations a discovery can use -/

/-- A configuration that no discovery is stopped by: a malformed one, one that is not filled in,
or an object whose name, if it has one, is a text. -/
inductive Tame : Files.Content → Prop where
  | malformed {complaint : String → String} : Tame (.malformed complaint)
  | unfilled {v : Value} (empty : v.isFilled = false) : Tame (.value v)
  | object {fields : Fields} (named : ∀ v, Table.find? fields "name" = some v → ∃ name, v = .str name) :
      Tame (.value (.obj fields))

theorem Tame.configured {v : Value} (tame : Tame (.value v)) :
    ∃ fields, configured v = .obj fields ∧
      ∀ v, Table.find? fields "name" = some v → ∃ name, v = .str name := by
  cases tame with
  | unfilled empty =>
    refine ⟨[], ?_, nofun⟩
    rw [Registry.configured, empty]
    rfl
  | @object fields named =>
    rw [Registry.configured]
    split
    next => exact ⟨fields, rfl, named⟩
    next => exact ⟨[], rfl, nofun⟩

theorem Occurs.exists_get? {name : String} {fields : Fields} (occurs : Occurs name (.obj fields)) :
    ∃ v, (Value.obj fields).get? name = some v := by
  cases occurs with
  | key member =>
    apply Option.ne_none_iff_exists'.1
    intro nothing
    exact Table.find?_eq_none_iff.1 nothing (List.mem_map_of_mem member)

theorem usable_of_whole {fields : Fields} {name : String} {path : Path}
    (named : (Value.obj fields).get? "name" = some (.str name))
    (whole : ∀ field ∈ requiredFields, Occurs field (.obj fields)) : Usable path (.ok (.obj fields)) := by
  obtain ⟨version, versioned⟩ := (whole "version" (by decide)).exists_get?
  exact .plugin named versioned

theorem usable_readConfiguration {files : Files} {path : Path} {content : Files.Content}
    (found : files.get? path = .ok (some (.file content))) (tame : Tame content) :
    Usable path (readConfiguration files path) := by
  have told := tells_readConfiguration files path
  rw [found] at told
  generalize readConfiguration files path = answer at told
  cases told with
  | malformed => exact .malformed
  | unaskable sort =>
    obtain ⟨fields, same, _⟩ := tame.configured
    rw [same] at sort
    cases sort
  | incomplete _ lacks => exact .incomplete lacks
  | complete whole =>
    obtain ⟨fields, same, named⟩ := tame.configured
    rw [same] at whole ⊢
    obtain ⟨v, has⟩ := (whole "name" (by decide)).exists_get?
    obtain ⟨name, rfl⟩ := named v has
    exact usable_of_whole has whole

theorem usable_load {files : Files} {path : Path} {content : Files.Content} {registry : Registry α}
    (found : files.get? path = .ok (some (.file content))) (tame : Tame content)
    (named : ∀ entry ∈ registry.cache, ∃ name, entry.2.get? "name" = some (.str name))
    (whole : ∀ entry ∈ registry.cache, ∀ field ∈ requiredFields, Occurs field entry.2) :
    Usable path (answerOf (load files path) registry) := by
  cases kept : Table.find? registry.cache path.text with
  | none =>
    rw [answerOf_load kept]
    exact usable_readConfiguration found tame
  | some config =>
    rw [answerOf_load_of_kept kept]
    have member := Table.mem_of_find? kept
    obtain ⟨name, has⟩ := named _ member
    cases config with
    | obj fields => exact usable_of_whole has (whole _ member)
    | _ => cases has

theorem pluginAt?_eq_some_iff {path other : Path} {answer : Except Fault Value} {name : String} :
    pluginAt? path answer = some (name, other) ↔
      path = other ∧ ∃ config, answer = .ok config ∧ config.get? "name" = some (.str name) := by
  cases answer with
  | error fault => simp [pluginAt?]
  | ok config =>
    unfold pluginAt?
    dsimp only
    constructor
    · intro found
      split at found
      next named =>
        cases found
        exact ⟨rfl, config, rfl, named⟩
      next => cases found
    · rintro ⟨rfl, _, loaded, named⟩
      cases loaded
      rw [named]

section Plugins

variable {paths : List Path} {answer : Path → Except Fault Value} {path : Path}

theorem mem_plugins {name : String} :
    (name, path) ∈ paths.filterMap (fun path => pluginAt? path (answer path)) ↔
      path ∈ paths ∧ ∃ config, answer path = .ok config ∧ config.get? "name" = some (.str name) := by
  rw [List.mem_filterMap]
  constructor
  · rintro ⟨other, member, named⟩
    obtain ⟨rfl, loaded⟩ := pluginAt?_eq_some_iff.1 named
    exact ⟨member, loaded⟩
  · rintro ⟨member, loaded⟩
    exact ⟨path, member, pluginAt?_eq_some_iff.2 ⟨rfl, loaded⟩⟩

theorem notMem_plugins_iff (usable : Usable path (answer path)) (member : path ∈ paths) :
    path ∉ (paths.filterMap fun path => pluginAt? path (answer path)).map (·.2) ↔
      ∃ fault, answer path = .error fault := by
  constructor
  · intro out
    cases loaded : answer path with
    | error fault => exact ⟨fault, rfl⟩
    | ok config =>
      rw [loaded] at usable
      cases usable with
      | @plugin _ _ name named =>
        exact absurd (List.mem_map.2 ⟨(name, path), mem_plugins.2 ⟨member, config, loaded, named⟩, rfl⟩) out
  · rintro ⟨fault, failed⟩ inside
    obtain ⟨⟨name, _⟩, listed, rfl⟩ := List.mem_map.1 inside
    obtain ⟨_, _, loaded, _⟩ := mem_plugins.1 listed
    cases failed.symm.trans loaded

end Plugins

/-- Discovering plugins after any earlier requests, in a directory in which no configuration would
stop it, and with nothing but objects with a text for their name kept from before. It comes to an
end. The configurations are those of the directories below, in the order of their names. A load
of each, as it was before, gives a plugin or fails as malformed or incomplete; a path is left out
just if its load fails, and each failure is noted once. The names of the plugins stand in the
order in which they first come, and each leads to the last path of that name. Whatever is asked
after that, a load of such a path gives a configuration of that name, also from other files. -/
theorem discover_exact (earlier : List (Request α)) (files : Files) (directory : Path)
    (present : files.get? directory = .ok (some .directory))
    (tame : ∀ path ∈ files.configurations directory,
      ∃ content, files.get? path = .ok (some (.file content)) ∧ Tame content)
    (named : ∀ entry ∈ (({} : Registry α).afterAll earlier).cache, ∃ name, entry.2.get? "name" = some (.str name)) :
    let registry := ({} : Registry α).afterAll earlier
    let paths := files.configurations directory
    let answer := fun path => answerOf (load files path) registry
    let plugins := paths.filterMap fun path => pluginAt? path (answer path)
    ∃ found next,
      discover files directory registry = .ok found next ∧
      (∃ names, files.Lists directory names ∧ paths = names.map directory.configuration) ∧
      (∀ path ∈ paths, Usable path (answer path)) ∧
      (∀ path ∈ paths, path ∉ plugins.map (·.2) ↔ ∃ fault, answer path = .error fault) ∧
      (∃ added, next.log = registry.log ++ added ∧
        added.filter isSkipNote = paths.filterMap fun path => skipNote? path (answer path)) ∧
      Keyed.spellings found = (plugins.map (·.1)).eraseDups.map (fun name => (.text name, .str name)) ∧
      (∀ name, Table.find? found (.text name) =
        (plugins.findRev? fun plugin => plugin.1 = name).map fun plugin => (.str name, plugin.2)) ∧
      ∀ name path, Table.find? found (.text name) = some (.str name, path) →
        ∀ (later : List (Request α)) (now : Files), ∃ config,
          load now path (next.afterAll later) = .ok config (next.afterAll later) ∧
          config.get? "name" = some (.str name) := by
  intro registry paths answer plugins
  have fresh : Keeps [] ({} : Registry α) := Keeps.start
  obtain ⟨history, keeps⟩ := fresh.requests earlier
  have usable : ∀ path ∈ paths, Usable path (answer path) := by
    intro path member
    obtain ⟨content, found, holds⟩ := tame path member
    exact usable_load found holds named keeps.complete
  have apart : ∀ path ∈ paths, ∀ other ∈ paths, path.text = other.text → path = other :=
    fun _ first _ second => Files.eq_of_text first second
  obtain ⟨found, next, ran, discovered⟩ :=
    Discovered.run apart usable paths [] [] registry rfl (Discovered.start files registry paths)
  have result : discover files directory registry = .ok found next := by
    unfold discover
    rw [present]
    exact ran
  obtain ⟨more, kept⟩ := keeps.request (.discover files directory)
  rw [Registry.after, leftBy, result] at kept
  refine ⟨found, next, result, files.exists_lists directory, usable, ?_, discovered.noted, ?_, ?_, ?_⟩
  · intro path member
    exact notMem_plugins_iff (usable path member) member
  · rw [discovered.found, Keyed.spellings_gathered]
  · intro name
    rw [discovered.found, Keyed.find?_gathered]
  · intro name path leads later now
    rw [discovered.found, Keyed.find?_gathered, List.findRev?_eq_find?_reverse] at leads
    obtain ⟨⟨found, place⟩, last, same⟩ := Option.map_eq_some_iff.1 leads
    cases same
    have called : found = name := by simpa using List.find?_some last
    obtain ⟨member, config, loaded, has⟩ := mem_plugins.1 (List.mem_reverse.1 (List.mem_of_find?_eq_some last))
    have held := kept.find?_afterAll (discovered.kept place member config loaded) later
    exact ⟨config, load_of_kept held, called ▸ has⟩

/-! Two directories with a plugin of one name, a malformed file between them, and a plugin that
had another name when it was loaded. -/

namespace Shelf

def directory : Path := ⟨"/", ["shelf"]⟩

def plugin (name : String) : Value :=
  .obj [("name", .str name), ("version", .int 1), ("file_extensions", .list [])]

def content : String → Files.Content
  | "b" => .malformed fun name => "while scanning " ++ name
  | "d" => .value (plugin "rust")
  | _ => .value (plugin "java")

def files : Files where
  items := (["shelf"], .directory) :: ["d", "b", "c", "a"].flatMap fun name =>
    [(["shelf", name], .directory), (["shelf", name, "config.yaml"], .file (content name))]

def renamed : Files := files.put ["shelf", "d", "config.yaml"] (.file (.value (plugin "zig")))

def earlier : List (Request Unit) := [.load renamed (directory.configuration "d")]

theorem names_eq : files.names ["shelf"] = ["a", "b", "c", "d"] := by
  have perm : (files.names ["shelf"]).Perm ["a", "b", "c", "d"] :=
    (List.mergeSort_perm _ _).trans (by decide)
  refine perm.eq_of_pairwise ?_ (Files.names_rising (by decide) ["shelf"]) (by decide)
  intro a b _ _ less more
  exact absurd more (String.lt_asymm less)

theorem locate_directory : files.locate directory = .ok ["shelf"] := by
  rw [files.locate_eq (by decide) (by decide)]
  rfl

theorem configurations_eq :
    files.configurations directory = ["a", "b", "c", "d"].map directory.configuration := by
  rw [Files.configurations, locate_directory]
  dsimp only
  rw [names_eq]
  rfl

theorem get?_eq : ∀ name ∈ ["a", "b", "c", "d"],
    files.get? (directory.configuration name) = .ok (some (.file (content name))) := by
  have located : ∀ name ∈ ["a", "b", "c", "d"],
      files.locate (directory.configuration name) = .ok ["shelf", name, "config.yaml"] := by
    simp only [List.forall_mem_cons]
    refine ⟨?_, ?_, ?_, ?_, nofun⟩ <;> rw [files.locate_eq (by decide) (by decide)] <;> rfl
  have held : ∀ name ∈ ["a", "b", "c", "d"],
      files.find? ["shelf", name, "config.yaml"] = some (.file (content name)) := by
    simp only [List.forall_mem_cons]
    exact ⟨rfl, rfl, rfl, rfl, nofun⟩
  intro name member
  rw [Files.get?_of_locate (located name member), held name member]

theorem cache_eq :
    (({} : Registry Unit).afterAll earlier).cache = [("/shelf/d/config.yaml", plugin "zig")] := by
  have located : renamed.locate (directory.configuration "d") = .ok ["shelf", "d", "config.yaml"] := by
    rw [renamed.locate_eq (by decide) (by decide)]
    rfl
  have told : readConfiguration renamed (directory.configuration "d") = .ok (plugin "zig") := by
    rw [readConfiguration, Files.get?_of_locate located]
    rfl
  have loaded : load renamed (directory.configuration "d") ({} : Registry Unit) =
      .ok (plugin "zig") { cache := [("/shelf/d/config.yaml", plugin "zig")] } := by
    unfold load
    rw [told]
    rfl
  exact congrArg (fun result => (leftBy (fun _ => result) ({} : Registry Unit)).cache) loaded

theorem plugins_eq :
    (["a", "b", "c", "d"].map directory.configuration).filterMap
        (fun path => pluginAt? path (answerOf (load files path) (({} : Registry Unit).afterAll earlier))) =
      [("java", directory.configuration "a"), ("java", directory.configuration "c"),
        ("zig", directory.configuration "d")] := by
  have fresh : ∀ name ∈ ["a", "b", "c"],
      answerOf (load files (directory.configuration name)) (({} : Registry Unit).afterAll earlier) =
        configurationOf (directory.configuration name) (content name) := by
    intro name member
    have unkept : ∀ name ∈ ["a", "b", "c"], (directory.configuration name).text ≠ "/shelf/d/config.yaml" := by decide
    rw [answerOf_load, readConfiguration, get?_eq name (List.mem_append_left ["d"] member)]
    rw [cache_eq, Table.find?, if_neg (unkept name member).symm, Table.find?]
  have kept : answerOf (load files (directory.configuration "d")) (({} : Registry Unit).afterAll earlier) =
      .ok (plugin "zig") := by
    apply answerOf_load_of_kept
    rw [cache_eq]
    rfl
  simp only [List.map_cons, List.map_nil]
  rw [List.filterMap_cons, List.filterMap_cons, List.filterMap_cons, List.filterMap_cons, kept,
    fresh "a" (by decide), fresh "b" (by decide), fresh "c" (by decide)]
  rfl

end Shelf

theorem discover_exact_shelf :
    ∃ found next,
      discover Shelf.files Shelf.directory (({} : Registry Unit).afterAll Shelf.earlier) = .ok found next ∧
      Keyed.spellings found = [(.text "java", .str "java"), (.text "zig", .str "zig")] ∧
      Table.find? found (.text "java") = some (.str "java", Shelf.directory.configuration "c") ∧
      ∃ config, load Shelf.files (Shelf.directory.configuration "d") next = .ok config next ∧
        config.get? "name" = some (.str "zig") := by
  have tame : ∀ path ∈ Shelf.files.configurations Shelf.directory,
      ∃ content, Shelf.files.get? path = .ok (some (.file content)) ∧ Tame content := by
    rw [Shelf.configurations_eq]
    intro path listed
    obtain ⟨name, member, rfl⟩ := List.mem_map.1 listed
    refine ⟨_, Shelf.get?_eq name member, ?_⟩
    unfold Shelf.content
    split
    · exact .malformed
    · exact .object (fun v has => ⟨"rust", (Option.some.inj has).symm⟩)
    · exact .object (fun v has => ⟨"java", (Option.some.inj has).symm⟩)
  have named : ∀ entry ∈ (({} : Registry Unit).afterAll Shelf.earlier).cache,
      ∃ name, entry.2.get? "name" = some (.str name) := by
    rw [Shelf.cache_eq]
    intro entry member
    rw [List.mem_singleton.1 member]
    exact ⟨"zig", rfl⟩
  have result := discover_exact Shelf.earlier Shelf.files Shelf.directory
    (Files.get?_of_locate Shelf.locate_directory) tame named
  simp only [Shelf.configurations_eq, Shelf.plugins_eq] at result
  obtain ⟨found, next, ran, _, _, _, _, spelled, leads, loads⟩ := result
  refine ⟨found, next, ran, spelled, leads "java", ?_⟩
  exact loads "zig" _ (leads "zig") [] Shelf.files

end Indentation.Registry
