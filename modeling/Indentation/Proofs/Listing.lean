import Indentation.Registry.Files
import Mathlib.Data.List.Nodup
import Mathlib.Data.List.Perm.Basic

/-! The configurations below a directory. A directory in it counts if something is called
config.yaml there. They are listed in the order of their names, each once, as long as the
files hold no place twice. No two of their paths are written alike, so what is kept under the
text of a path is kept for that path alone. -/

namespace Indentation

namespace Path

/-- Where the configuration in a directory below another one is. -/
def configuration (directory : Path) (name : String) : Path := directory.join [name, "config.yaml"]

theorem text_configuration (directory : Path) (name : String) :
    (directory.configuration name).text =
      directory.root ++ "/".intercalate (directory.parts ++ [name, "config.yaml"]) := by
  have parts : (directory.configuration name).parts ≠ [] := by simp [configuration, join]
  rw [text, if_neg fun empty => parts empty.2]
  rfl

theorem eq_of_text_configuration {directory : Path} {a b : String}
    (same : (directory.configuration a).text = (directory.configuration b).text) : a = b := by
  have tails : "/".intercalate [a, "config.yaml"] = "/".intercalate [b, "config.yaml"] := by
    rw [text_configuration, text_configuration, String.append_right_inj] at same
    by_cases empty : directory.parts = []
    · rwa [empty] at same
    · rwa [String.intercalate_append_of_ne_nil empty (List.cons_ne_nil _ _),
        String.intercalate_append_of_ne_nil empty (List.cons_ne_nil _ _), String.append_right_inj] at same
  rwa [String.intercalate_cons_of_ne_nil (List.cons_ne_nil _ _),
    String.intercalate_cons_of_ne_nil (List.cons_ne_nil _ _), String.append_left_inj, String.append_left_inj] at tails

end Path

namespace Files

/-- A path that is written as it should be leads from directory to directory. -/
theorem locate_eq {path : Path} (files : Files) (plain : '\x00' ∉ path.text.toList)
    (short : path.text.utf8ByteSize ≤ longestPath) :
    files.locate path = path.parts.foldlM (stepInto files) (start path) := by
  have right : writtenWrong? path = none := by
    rw [writtenWrong?, String.contains_char_eq, decide_eq_false plain, if_neg Bool.false_ne_true,
      if_neg (Nat.not_lt.2 short)]
  rw [locate, right]

theorem get?_of_locate {files : Files} {path : Path} {place : List String} (located : files.locate path = .ok place) :
    files.get? path = .ok (files.find? place) := by
  rw [get?, located]

/-- The name of an entry of a directory, by its place. -/
private def nameIn? (directory place : List String) : Option String :=
  if place ≠ [] ∧ place.dropLast = directory then place.getLast? else none

private theorem nameIn?_eq_some_iff {directory place : List String} {name : String} :
    nameIn? directory place = some name ↔ place = directory ++ [name] := by
  unfold nameIn?
  constructor
  · intro named
    split at named
    next inside => rw [← inside.2, List.dropLast_append_getLast? _ named]
    next => cases named
  · intro same
    simp [same]

private theorem names_eq (files : Files) (directory : List String) :
    files.names directory = ((files.items.map (·.1)).filterMap (nameIn? directory)).mergeSort fun a b => !(b < a) := by
  rw [List.filterMap_map]
  rfl

theorem mem_names {files : Files} {directory : List String} {name : String} :
    name ∈ files.names directory ↔ directory ++ [name] ∈ files.items.map (·.1) := by
  rw [names_eq, List.mem_mergeSort, List.mem_filterMap]
  constructor
  · rintro ⟨place, member, named⟩
    exact nameIn?_eq_some_iff.1 named ▸ member
  · intro member
    exact ⟨_, member, nameIn?_eq_some_iff.2 rfl⟩

theorem names_rising {files : Files} (distinct : (files.items.map (·.1)).Nodup) (directory : List String) :
    (files.names directory).Pairwise (· < ·) := by
  have order : ∀ a b : String, (!decide (b < a)) = true ↔ a ≤ b := by
    intro a b
    rw [Bool.not_eq_true', decide_eq_false_iff_not, String.not_lt]
  have sorted : (files.names directory).Pairwise (· ≤ ·) := by
    rw [names_eq]
    refine (List.pairwise_mergeSort ?_ ?_ _).imp (order _ _).1
    · intro a b c first second
      rw [order] at *
      exact String.le_trans first second
    · intro a b
      rw [Bool.or_eq_true, order, order]
      exact String.le_total a b
  have once : (files.names directory).Nodup := by
    rw [names_eq, (List.mergeSort_perm _ _).nodup_iff]
    refine List.Nodup.filterMap ?_ distinct
    intro place other name first second
    rw [nameIn?_eq_some_iff.1 first, nameIn?_eq_some_iff.1 second]
  exact (sorted.and once).imp fun ⟨le, ne⟩ => Std.lt_of_le_of_ne le ne

/-- A directory in another one that has a configuration. -/
def Offers (files : Files) (directory : List String) (name : String) : Prop :=
  files.isDirectory (directory ++ [name]) = true ∧ (files.find? (directory ++ [name, "config.yaml"])).isSome = true

theorem Offers.mem_names {files : Files} {directory : List String} {name : String}
    (offers : files.Offers directory name) : name ∈ files.names directory := by
  have there := offers.1
  rw [isDirectory, find?, if_neg (List.concat_ne_nil _ _)] at there
  rw [Files.mem_names]
  cases found : files.items.find? (·.1 = directory ++ [name]) with
  | none =>
    rw [found] at there
    cases there
  | some entry =>
    have same : entry.1 = directory ++ [name] := by simpa using List.find?_some found
    exact List.mem_map.2 ⟨entry, List.mem_of_find?_eq_some found, same⟩

/-- The names of the directories with a configuration, in order. -/
structure Lists (files : Files) (path : Path) (names : List String) : Prop where
  exactly : ∀ name, name ∈ names ↔ ∃ place, files.locate path = .ok place ∧ files.Offers place name
  rising : (files.items.map (·.1)).Nodup → names.Pairwise (· < ·)

theorem exists_lists (files : Files) (path : Path) :
    ∃ names, files.Lists path names ∧ files.configurations path = names.map path.configuration := by
  unfold configurations
  cases located : files.locate path with
  | error trouble => exact ⟨[], ⟨by simp [located], fun _ => List.Pairwise.nil⟩, rfl⟩
  | ok place =>
    refine ⟨_, ⟨?_, ?_⟩, rfl⟩
    · intro name
      rw [List.mem_filter, Bool.and_eq_true]
      constructor
      · exact fun ⟨_, offers⟩ => ⟨place, located, offers⟩
      · rintro ⟨other, same, offers⟩
        cases located.symm.trans same
        exact ⟨offers.mem_names, offers⟩
    · intro distinct
      exact (names_rising distinct place).filter _

theorem eq_of_text {files : Files} {directory path other : Path} (first : path ∈ files.configurations directory)
    (second : other ∈ files.configurations directory) (same : path.text = other.text) : path = other := by
  obtain ⟨names, _, listed⟩ := files.exists_lists directory
  rw [listed] at first second
  obtain ⟨a, _, rfl⟩ := List.mem_map.1 first
  obtain ⟨b, _, rfl⟩ := List.mem_map.1 second
  rw [Path.eq_of_text_configuration same]

end Files
end Indentation
