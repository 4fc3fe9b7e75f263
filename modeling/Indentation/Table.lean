/-! Rows and tables. A place in a row is counted from its beginning or, where the number is
negative, from its end. A table keeps the order in which its keys first came; giving a key
another value leaves it in its place. -/

namespace Indentation

namespace Row

def place? (size : Nat) (number : Int) : Option (Fin size) :=
  let place := if number < 0 then number + size else number
  if h : 0 ≤ place ∧ place.toNat < size then some ⟨place.toNat, h.2⟩ else none

def item? {α : Type} (row : List α) (number : Int) : Option α :=
  (place? row.length number).map row.get

end Row

abbrev Table (κ β : Type) := List (κ × β)

namespace Table

variable {κ β : Type} [DecidableEq κ]

def find? : Table κ β → κ → Option β
  | [], _ => none
  | (other, value) :: rest, key => if other = key then some value else find? rest key

def has (table : Table κ β) (key : κ) : Bool := (find? table key).isSome

def put : Table κ β → κ → β → Table κ β
  | [], key, value => [(key, value)]
  | (other, old) :: rest, key, value =>
    if other = key then (key, value) :: rest else (other, old) :: put rest key value

/-- The second table's values win. -/
def merge (table other : Table κ β) : Table κ β :=
  other.foldl (fun table (key, value) => put table key value) table

def keys (table : Table κ β) : List κ := table.map (·.1)

theorem mem_of_find? {table : Table κ β} {key : κ} {value : β} (found : find? table key = some value) :
    (key, value) ∈ table := by
  induction table with
  | nil => cases found
  | cons entry rest ih =>
    obtain ⟨name, old⟩ := entry
    by_cases same : name = key
    · simp_all [find?]
    · exact List.mem_cons_of_mem _ (ih (by simpa [find?, same] using found))

theorem find?_put (table : Table κ β) (key other : κ) (value : β) :
    find? (put table key value) other = if key = other then some value else find? table other := by
  induction table with
  | nil => simp [put, find?]
  | cons entry rest ih =>
    obtain ⟨name, old⟩ := entry
    by_cases same : name = key
    · subst same
      by_cases asked : name = other <;> simp [put, find?, asked]
    · by_cases asked : name = other
      · subst asked
        simp [put, find?, same, Ne.symm same]
      · simp [put, find?, same, asked, ih]

theorem find?_append (table other : Table κ β) (key : κ) :
    find? (table ++ other) key = (find? table key).or (find? other key) := by
  induction table with
  | nil => rfl
  | cons entry rest ih =>
    obtain ⟨name, value⟩ := entry
    by_cases same : name = key
    · simp [find?, same]
    · simpa [find?, same] using ih

theorem put_of_find?_eq_none {table : Table κ β} {key : κ} (value : β) (missing : find? table key = none) :
    put table key value = table ++ [(key, value)] := by
  induction table with
  | nil => rfl
  | cons entry rest ih =>
    obtain ⟨name, old⟩ := entry
    by_cases same : name = key
    · simp [find?, same] at missing
    · simp only [find?, same, ↓reduceIte] at missing
      simp [put, same, ih missing]

theorem keys_put (table : Table κ β) (key : κ) (value : β) :
    keys (put table key value) = if key ∈ keys table then keys table else keys table ++ [key] := by
  induction table with
  | nil => simp [put, keys]
  | cons entry rest ih =>
    obtain ⟨name, old⟩ := entry
    by_cases same : name = key
    · simp [put, keys, same]
    · simp only [keys] at ih
      simp only [put, same, keys, List.map_cons, ih, List.mem_cons, Ne.symm same, false_or, ↓reduceIte]
      split <;> simp_all

theorem find?_eq_none_iff {table : Table κ β} {key : κ} : find? table key = none ↔ key ∉ keys table := by
  induction table with
  | nil => simp [find?, keys]
  | cons entry rest ih =>
    obtain ⟨name, old⟩ := entry
    simp only [keys] at ih
    by_cases same : name = key
    · simp [find?, keys, same]
    · simp [find?, keys, same, Ne.symm same, ih]

theorem nodup_put {table : Table κ β} (distinct : (keys table).Nodup) (key : κ) (value : β) :
    (keys (put table key value)).Nodup := by
  rw [keys_put]
  split
  next => exact distinct
  next fresh =>
    refine List.nodup_append.2 ⟨distinct, by simp, ?_⟩
    intro name known other new same
    rw [same, List.mem_singleton.1 new] at known
    exact fresh known

theorem nodup_merge {table : Table κ β} (distinct : (keys table).Nodup) (other : Table κ β) :
    (keys (merge table other)).Nodup := by
  induction other generalizing table with
  | nil => exact distinct
  | cons entry rest ih => exact ih (nodup_put distinct entry.1 entry.2)

/-- Where no key comes twice, merging puts the tables one after the other. -/
theorem merge_of_nodup {table other : Table κ β} (distinct : (keys (table ++ other)).Nodup) :
    merge table other = table ++ other := by
  induction other generalizing table with
  | nil => exact (List.append_nil table).symm
  | cons entry rest ih =>
    obtain ⟨name, value⟩ := entry
    have fresh : find? table name = none := by
      rw [find?_eq_none_iff]
      intro known
      rw [keys, List.map_append] at distinct
      exact (List.nodup_append.1 distinct).2.2 name known name (by simp) rfl
    have step : merge table ((name, value) :: rest) = merge (put table name value) rest := rfl
    rw [step, put_of_find?_eq_none value fresh, ih (by simpa using distinct), List.append_assoc]
    rfl

theorem merge_nil {table : Table κ β} (distinct : (keys table).Nodup) : merge [] table = table :=
  merge_of_nodup distinct

end Table
end Indentation
