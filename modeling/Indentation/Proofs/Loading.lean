import Indentation.Proofs.Requirements

/-! Loading configurations over whole runs, in which files are written and removed and
configurations are loaded and discovered in any order. A registry keeps, under the text of
each path, what the first load that succeeded there gave, and nothing else: a load that fails
leaves no trace, and one that finds something kept does not look at the files. What is kept
has all required fields, since a file without them fails to load. -/

namespace Indentation

section Actions

variable {ε σ β : Type}

/-- The state that an action leaves, whether or not it was stopped. -/
def leftBy (action : EStateM ε σ β) (s : σ) : σ :=
  match action s with
  | .ok _ next => next
  | .error _ next => next

def answerOf (action : EStateM ε σ β) (s : σ) : Except ε β :=
  match action s with
  | .ok answer _ => .ok answer
  | .error fault _ => .error fault

end Actions

namespace Registry

structure Load where
  path : Path
  answer : Except Fault Value

def Load.success? (key : String) (load : Load) : Option Value :=
  if load.path.text = key then load.answer.toOption else none

variable {α : Type}

def loadMade (files : Files) (path : Path) (registry : Registry α) : Load := ⟨path, answerOf (load files path) registry⟩

/-- The loads that a discovery makes. Each path is loaded in the registry that the one before it
left, until something stops the discovery. -/
def loadsAlong (files : Files) (found : Keyed Path) : List Path → Registry α → List Load
  | [], _ => []
  | path :: rest, registry =>
    loadMade files path registry ::
      match discoverAll files found [path] registry with
      | .ok more next => loadsAlong files more rest next
      | .error _ _ => []

def loadsOfDiscovery (files : Files) (directory : Path) (registry : Registry α) : List Load :=
  match files.get? directory with
  | .ok (some _) => loadsAlong files [] (files.configurations directory) registry
  | _ => []

theorem cache_noteMalformed (registry : Registry α) (fault : Fault) :
    (registry.noteMalformed fault).cache = registry.cache := by
  unfold noteMalformed
  split
  next => rfl
  next => rfl

/-- A load finds what is kept, or it keeps what the file tells, or the file fails it. -/
theorem load_cases (files : Files) (path : Path) (registry : Registry α) :
    (∃ config, Table.find? registry.cache path.text = some config ∧ load files path registry = .ok config registry) ∨
    Table.find? registry.cache path.text = none ∧
      ((∃ config, readConfiguration files path = .ok config ∧
        load files path registry = .ok config { registry with cache := Table.put registry.cache path.text config }) ∨
      ∃ fault, readConfiguration files path = .error fault ∧
        load files path registry = .error fault (registry.noteMalformed fault)) := by
  have current : (get : Action α (Registry α)) registry = .ok registry registry := rfl
  simp only [load, bind, EStateM.bind, current]
  cases Table.find? registry.cache path.text with
  | some config => exact .inl ⟨config, rfl, rfl⟩
  | none =>
    refine .inr ⟨rfl, ?_⟩
    cases readConfiguration files path with
    | ok config => exact .inl ⟨config, rfl, rfl⟩
    | error fault => exact .inr ⟨fault, rfl, rfl⟩

theorem answerOf_load {files : Files} {path : Path} {registry : Registry α}
    (nothing : Table.find? registry.cache path.text = none) :
    answerOf (load files path) registry = readConfiguration files path := by
  rw [answerOf]
  rcases load_cases files path registry with ⟨_, kept, _⟩ | ⟨_, ⟨config, read, loaded⟩ | ⟨fault, read, failed⟩⟩
  · cases nothing.symm.trans kept
  · rw [read, loaded]
  · rw [read, failed]

theorem cache_of_failed {files : Files} {path : Path} {registry next : Registry α} {fault : Fault}
    (failed : load files path registry = .error fault next) : next.cache = registry.cache := by
  rcases load_cases files path registry with ⟨_, _, loaded⟩ | ⟨_, ⟨_, _, loaded⟩ | ⟨_, _, stopped⟩⟩
  · cases failed.symm.trans loaded
  · cases failed.symm.trans loaded
  · cases failed.symm.trans stopped
    exact cache_noteMalformed registry fault

/-- The cache after some loads: under each key what first succeeded there, and complete. -/
structure Keeps (history : List Load) (registry : Registry α) : Prop where
  first : ∀ key, Table.find? registry.cache key = history.findSome? (Load.success? key)
  complete : ∀ entry ∈ registry.cache, ∀ field ∈ requiredFields, Occurs field entry.2

namespace Keeps

variable {history : List Load} {registry next : Registry α}

theorem start : Keeps [] ({} : Registry α) := ⟨fun _ => rfl, nofun⟩

theorem of_cache (keeps : Keeps history registry) (same : next.cache = registry.cache) : Keeps history next := by
  refine ⟨?_, ?_⟩
  · rw [same]
    exact keeps.first
  · rw [same]
    exact keeps.complete

theorem load (keeps : Keeps history registry) (files : Files) (path : Path) :
    Keeps (history ++ [loadMade files path registry]) (leftBy (load files path) registry) := by
  rcases load_cases files path registry with ⟨config, kept, loaded⟩ | ⟨fresh, ⟨config, read, loaded⟩ | ⟨fault, _, failed⟩⟩
  · -- What is kept was the first success already.
    rw [loadMade, answerOf, leftBy, loaded]
    refine ⟨?_, keeps.complete⟩
    intro key
    rw [List.findSome?_append, ← keeps.first, List.findSome?_singleton, Load.success?]
    by_cases same : path.text = key
    · rw [← same, kept]
      rfl
    · rw [if_neg same, Option.or_none]
  · rw [loadMade, answerOf, leftBy, loaded]
    refine ⟨?_, ?_⟩
    · intro key
      rw [Table.find?_put, List.findSome?_append, ← keeps.first, List.findSome?_singleton, Load.success?]
      by_cases same : path.text = key
      · rw [← same, fresh, if_pos rfl, if_pos rfl]
        rfl
      · rw [if_neg same, if_neg same, Option.or_none]
    · intro entry member
      rw [Table.put_of_find?_eq_none _ fresh] at member
      rcases List.mem_append.1 member with old | new
      · exact keeps.complete entry old
      · rw [List.mem_singleton.1 new]
        exact (read ▸ tells_readConfiguration files path).complete_of_ok
  · have same : (leftBy (Registry.load files path) registry).cache = registry.cache := by
      rw [leftBy, failed]
      exact cache_of_failed failed
    have nothing : ∀ key, (loadMade files path registry).success? key = none := by
      intro key
      rw [loadMade, answerOf, failed, Load.success?]
      exact ite_self none
    refine ⟨?_, (keeps.of_cache same).complete⟩
    intro key
    rw [same, List.findSome?_append, ← keeps.first, List.findSome?_singleton, nothing, Option.or_none]

end Keeps

theorem cache_addFound (found : Keyed Path) (path : Path) (config : Value) (registry : Registry α) :
    (leftBy (addFound found path config) registry).cache = registry.cache := by
  unfold leftBy addFound
  cases config.get? "name" with
  | none => rfl
  | some name =>
    cases config.get? "version" with
    | none => rfl
    | some version =>
      dsimp only
      cases name.key? with
      | none => rfl
      | some key => rfl

theorem discoverAll_cons (files : Files) (found : Keyed Path) (path : Path) (rest : List Path) (registry : Registry α) :
    discoverAll files found (path :: rest) registry =
      match discoverAll files found [path] registry with
      | .ok more next => discoverAll files more rest next
      | .error fault next => .error fault next := by
  simp only [discoverAll, bind, EStateM.bind]
  cases load files path registry with
  | ok config loaded =>
    dsimp only
    cases addFound found path config loaded with
    | ok more next => rfl
    | error fault next => rfl
  | error fault failed =>
    dsimp only
    cases isSkipped fault with
    | true => rfl
    | false => rfl

theorem cache_discoverAll_single (files : Files) (found : Keyed Path) (path : Path) (registry : Registry α) :
    (leftBy (discoverAll files found [path]) registry).cache = (leftBy (load files path) registry).cache := by
  simp only [leftBy, discoverAll, bind, EStateM.bind]
  cases load files path registry with
  | ok config loaded =>
    have kept := cache_addFound found path config loaded
    rw [leftBy] at kept
    dsimp only
    cases added : addFound found path config loaded with
    | ok more next =>
      rw [added] at kept
      exact kept
    | error fault next =>
      rw [added] at kept
      exact kept
  | error fault failed =>
    dsimp only
    cases isSkipped fault with
    | true => rfl
    | false => rfl

theorem Keeps.discoverAll {history : List Load} {registry : Registry α} (keeps : Keeps history registry) (files : Files)
    (found : Keyed Path) (paths : List Path) :
    Keeps (history ++ loadsAlong files found paths registry) (leftBy (discoverAll files found paths) registry) := by
  induction paths generalizing history registry found with
  | nil =>
    rw [loadsAlong, List.append_nil]
    exact keeps
  | cons path rest ih =>
    have one := (keeps.load files path).of_cache (cache_discoverAll_single files found path registry)
    rw [loadsAlong, leftBy, discoverAll_cons files found path rest registry]
    rw [leftBy] at one
    cases made : Registry.discoverAll files found [path] registry with
    | ok more next =>
      rw [made] at one
      rw [List.append_cons]
      exact ih one more
    | error fault next =>
      rw [made] at one
      exact one

theorem Keeps.discover {history : List Load} {registry : Registry α} (keeps : Keeps history registry) (files : Files)
    (directory : Path) :
    Keeps (history ++ loadsOfDiscovery files directory registry) (leftBy (discover files directory) registry) := by
  unfold loadsOfDiscovery Registry.discover
  cases files.get? directory with
  | error trouble => exact (List.append_nil history).symm ▸ keeps
  | ok item =>
    cases item with
    | none => exact (List.append_nil history).symm ▸ keeps.of_cache rfl
    | some _ => exact keeps.discoverAll files [] _

/-- Files, and a registry that loads from them. -/
structure World (α : Type) where
  files : Files
  registry : Registry α

inductive Event where
  | write (path : Path) (content : Files.Content)
  | remove (path : Path)
  | load (path : Path)
  | discover (directory : Path)

namespace World

/-- What an event leaves behind, also where it fails. -/
def after (world : World α) : Event → World α
  | .write path content => { world with files := leftBy (Files.write path content) world.files }
  | .remove path => { world with files := leftBy (Files.remove path) world.files }
  | .load path => { world with registry := leftBy (load world.files path) world.registry }
  | .discover directory => { world with registry := leftBy (discover world.files directory) world.registry }

def loads (world : World α) : Event → List Load
  | .write _ _ => []
  | .remove _ => []
  | .load path => [loadMade world.files path world.registry]
  | .discover directory => loadsOfDiscovery world.files directory world.registry

def run (world : World α) (events : List Event) : World α := events.foldl after world

def history (world : World α) : List Event → List Load
  | [] => []
  | event :: rest => world.loads event ++ (world.after event).history rest

end World

theorem Keeps.after {earlier : List Load} {world : World α} (keeps : Keeps earlier world.registry) (event : Event) :
    Keeps (earlier ++ world.loads event) (world.after event).registry := by
  cases event with
  | write path content =>
    rw [World.loads, List.append_nil]
    exact keeps
  | remove path =>
    rw [World.loads, List.append_nil]
    exact keeps
  | load path => exact keeps.load world.files path
  | discover directory => exact keeps.discover world.files directory

theorem Keeps.run {earlier : List Load} {world : World α} (keeps : Keeps earlier world.registry) (events : List Event) :
    Keeps (earlier ++ world.history events) (world.run events).registry := by
  induction events generalizing earlier world with
  | nil =>
    rw [World.history, List.append_nil]
    exact keeps
  | cons event rest ih =>
    rw [World.history, ← List.append_assoc]
    exact ih (keeps.after event)

/-- A load at the end of any run that began with an empty registry. If a load under the same key
ever succeeded, it gives what the first of these gave and changes nothing. Otherwise the file
decides, as it is now. Whatever the registry, a load that fails leaves the cache as it was; and
all that is in the cache after the run has the required fields. -/
theorem load_after_run (files : Files) (events : List Event) (path : Path) :
    let start : World α := ⟨files, {}⟩
    let world := start.run events
    (∀ config, (start.history events).findSome? (Load.success? path.text) = some config →
      load world.files path world.registry = .ok config world.registry) ∧
    ((start.history events).findSome? (Load.success? path.text) = none →
      ∀ answer, answerOf (load world.files path) world.registry = answer ↔
        Tells path (world.files.get? path) answer) ∧
    (∀ (registry next : Registry α) (fault : Fault),
      load world.files path registry = .error fault next → next.cache = registry.cache) ∧
    ∀ entry ∈ world.registry.cache, ∀ field ∈ requiredFields, Occurs field entry.2 := by
  intro start world
  have fresh : Keeps [] start.registry := Keeps.start
  have keeps : Keeps (start.history events) world.registry := fresh.run events
  refine ⟨?_, ?_, fun _ _ _ => cache_of_failed, keeps.complete⟩
  · intro config succeeded
    rw [← keeps.first] at succeeded
    rcases load_cases world.files path world.registry with ⟨_, kept, loaded⟩ | ⟨nothing, _⟩
    · cases succeeded.symm.trans kept
      exact loaded
    · cases succeeded.symm.trans nothing
  · intro nothing
    rw [← keeps.first] at nothing
    have told := tells_readConfiguration world.files path
    rw [← answerOf_load nothing] at told
    intro answer
    exact ⟨fun same => same ▸ told, told.unique⟩

end Registry
end Indentation
