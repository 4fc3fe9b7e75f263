import Indentation.Proofs.LogContext

/-! Loggers whose contexts stand in memory, where a table can be changed by whoever knows its
number. Getting a logger, deriving one from it and calling it all write into tables, but only into
tables that they have just made, so memory only grows: what a logger was given stays as it is,
whatever is derived from it. What is read back are the loggers of the theory, whose contexts are
plain values. -/

namespace Indentation.Log

namespace Staged

/-- Tables by the numbers they were made under. -/
abbrev Memory := List Fields

namespace Memory

variable {memory : Memory}

def table (memory : Memory) (number : Nat) : Fields := (memory[number]?).getD []

/-- Puts a field into a table, where it stands. -/
def write (memory : Memory) (number : Nat) (field : String × Value) : Memory :=
  memory.modify number fun table => Table.put table field.1 field.2

/-- Puts fields into a table, one after the other. -/
def writeAll (memory : Memory) (number : Nat) (fields : Fields) : Memory :=
  fields.foldl (fun memory field => memory.write number field) memory

/-- A new table, for the fields that a call names. -/
def give (memory : Memory) (fields : Fields) : Memory := writeAll (memory ++ [[]]) memory.length fields

/-- A new table, into which one table is copied and then another. -/
def join (memory : Memory) (first second : Nat) : Memory :=
  let new := memory.length
  let half := writeAll (memory ++ [[]]) new (table (memory ++ [[]]) first)
  half.writeAll new (half.table second)

/-- A table that is kept as it is unless it is empty; then a new one takes its place. -/
def keep (memory : Memory) (number : Nat) : Memory × Nat :=
  if (memory.table number).isEmpty then (memory ++ [[]], memory.length) else (memory, number)

theorem table_append {number : Nat} (known : number < memory.length) (more : List Fields) :
    table (memory ++ more) number = memory.table number := by
  rw [table, table, List.getElem?_append_left known]

theorem table_last (memory : Memory) (fields : Fields) : table (memory ++ [fields]) memory.length = fields := by
  rw [table, List.getElem?_concat_length, Option.getD_some]

theorem write_last (memory : Memory) (own : Fields) (field : String × Value) :
    write (memory ++ [own]) memory.length field = memory ++ [Table.put own field.1 field.2] := by
  unfold write
  induction memory with
  | nil => rfl
  | cons first rest ih => rw [List.cons_append, List.length_cons, List.modify_succ_cons, ih, List.cons_append]

/-- Writing into the newest table leaves the others alone. -/
theorem writeAll_last (memory : Memory) (own fields : Fields) :
    writeAll (memory ++ [own]) memory.length fields = memory ++ [Table.merge own fields] := by
  induction fields generalizing own with
  | nil => rfl
  | cons field rest ih =>
    rw [writeAll, List.foldl_cons, write_last, ← writeAll, ih]
    rfl

theorem give_eq (memory : Memory) (fields : Fields) : memory.give fields = memory ++ [Table.merge [] fields] :=
  writeAll_last memory [] fields

theorem join_eq {first second : Nat} (one : first < memory.length) (other : second < memory.length) :
    memory.join first second =
      memory ++ [Table.merge (Table.merge [] (memory.table first)) (memory.table second)] := by
  unfold join
  dsimp only
  rw [table_append one, writeAll_last, table_append other, writeAll_last]

theorem table_keep (memory : Memory) (number : Nat) :
    (memory.keep number).1.table (memory.keep number).2 = memory.table number := by
  unfold keep
  split
  next empty =>
    rw [table_last]
    exact (List.isEmpty_iff.1 empty).symm
  next => rfl

theorem keep_lt {number : Nat} (known : number < memory.length) : (memory.keep number).2 < (memory.keep number).1.length := by
  unfold keep
  split
  next => simp
  next => exact known

/-- Tables come in at the end, and none of them has a key twice. -/
structure Grows (before after : Memory) : Prop where
  kept : before <+: after
  distinct : (∀ table ∈ before, (Table.keys table).Nodup) → ∀ table ∈ after, (Table.keys table).Nodup

theorem Grows.trans {first second third : Memory} (early : Grows first second) (late : Grows second third) :
    Grows first third :=
  ⟨early.kept.trans late.kept, fun distinct => late.distinct (early.distinct distinct)⟩

theorem grows_concat (memory : Memory) {fields : Fields} (own : (Table.keys fields).Nodup) :
    Grows memory (memory ++ [fields]) := by
  refine ⟨List.prefix_append _ _, ?_⟩
  intro distinct table member
  obtain old | new := List.mem_append.1 member
  · exact distinct table old
  · rwa [List.mem_singleton.1 new]

theorem nodup_copy (fields : Fields) : (Table.keys (Table.merge [] fields)).Nodup := by
  apply Table.nodup_merge
  exact List.nodup_nil

theorem grows_give (memory : Memory) (fields : Fields) : Grows memory (memory.give fields) := by
  rw [give_eq]
  exact grows_concat memory (nodup_copy fields)

theorem grows_keep (memory : Memory) (number : Nat) : Grows memory (memory.keep number).1 := by
  unfold keep
  split
  next => exact grows_concat memory List.nodup_nil
  next => exact ⟨List.prefix_refl _, id⟩

theorem lt_length_give (memory : Memory) (fields : Fields) : memory.length < (memory.give fields).length := by
  rw [give_eq, List.length_append, List.length_singleton]
  exact Nat.lt_succ_self _

theorem table_give (memory : Memory) (fields : Fields) :
    (memory.give fields).table memory.length = Table.merge [] fields := by
  rw [give_eq, table_last]

theorem table_give_of_lt {number : Nat} (known : number < memory.length) (fields : Fields) :
    (memory.give fields).table number = memory.table number := by
  rw [give_eq, table_append known]

end Memory

/-- A logger that knows its context by number. -/
structure Adapter where
  name : String
  context : Nat

/-- All loggers there are, in the order in which they were made, and the memory that they share. -/
structure Desk where
  memory : Memory := []
  adapters : List Adapter := []

inductive Act where
  | start (name : String) (context : Fields)
  | derive (parent : Nat) (context : Fields)
  | call (caller : Nat) (extra : Fields)

namespace Desk

/-- What a call makes a record of stands in the newest table. -/
def after (desk : Desk) : Act → Desk
  | .start name context =>
    let (memory, kept) := (desk.memory.give context).keep desk.memory.length
    ⟨memory, desk.adapters ++ [⟨name, kept⟩]⟩
  | .derive parent context =>
    match desk.adapters[parent]? with
    | none => desk
    | some adapter =>
      let given := desk.memory.give context
      let (memory, kept) := (given.join adapter.context desk.memory.length).keep given.length
      ⟨memory, desk.adapters ++ [⟨adapter.name, kept⟩]⟩
  | .call caller extra =>
    match desk.adapters[caller]? with
    | none => desk
    | some adapter => { desk with memory := (desk.memory.give extra).join desk.memory.length adapter.context }

def run (desk : Desk) (acts : List Act) : Desk := acts.foldl after desk

/-- A logger as it reads now. -/
def logger? (desk : Desk) (number : Nat) : Option Logger :=
  desk.adapters[number]?.map fun adapter => ⟨adapter.name, desk.memory.table adapter.context⟩

/-- Every logger's context is there, and no table has a key twice. -/
structure Sound (desk : Desk) : Prop where
  known : ∀ adapter ∈ desk.adapters, adapter.context < desk.memory.length
  distinct : ∀ table ∈ desk.memory, (Table.keys table).Nodup

/-- Nothing that was there has changed. -/
structure Extends (before after : Desk) : Prop where
  memory : before.memory <+: after.memory
  adapters : before.adapters <+: after.adapters

/-- One logger comes in at the end, and reads as given. -/
structure Adds (before after : Desk) (logger : Logger) : Prop where
  memory : Memory.Grows before.memory after.memory
  adapter : ∃ kept, after.adapters = before.adapters ++ [⟨logger.name, kept⟩] ∧ kept < after.memory.length ∧
    after.memory.table kept = logger.context

variable {desk : Desk}

theorem Extends.refl (desk : Desk) : Extends desk desk := ⟨List.prefix_refl _, List.prefix_refl _⟩

theorem Extends.trans {first second third : Desk} (early : Extends first second) (late : Extends second third) :
    Extends first third :=
  ⟨early.memory.trans late.memory, early.adapters.trans late.adapters⟩

theorem Adds.sound {before after : Desk} {logger : Logger} (added : Adds before after logger) (sound : Sound before) :
    Sound after ∧ Extends before after := by
  obtain ⟨grown, kept, adapters, known, -⟩ := added
  refine ⟨⟨?_, grown.distinct sound.distinct⟩, ⟨grown.kept, ⟨_, adapters.symm⟩⟩⟩
  intro adapter member
  rw [adapters] at member
  obtain old | new := List.mem_append.1 member
  · exact Nat.lt_of_lt_of_le (sound.known adapter old) grown.kept.length_le
  · rwa [List.mem_singleton.1 new]

theorem Adds.logger? {before after : Desk} {logger : Logger} (added : Adds before after logger) :
    after.logger? before.adapters.length = some logger := by
  obtain ⟨-, kept, adapters, -, table⟩ := added
  rw [Desk.logger?, adapters, List.getElem?_concat_length, Option.map_some, table]

theorem adds_keep {memory : Memory} (grown : Memory.Grows desk.memory memory) {number : Nat}
    (known : number < memory.length) (name : String) :
    Adds desk ⟨(memory.keep number).1, desk.adapters ++ [⟨name, (memory.keep number).2⟩]⟩ ⟨name, memory.table number⟩ :=
  ⟨grown.trans (Memory.grows_keep memory number), _, rfl, Memory.keep_lt known, Memory.table_keep memory number⟩

theorem adds_start (desk : Desk) (name : String) (context : Fields) :
    Adds desk (desk.after (.start name context)) ⟨name, Table.merge [] context⟩ := by
  have added := adds_keep (Memory.grows_give desk.memory context) (Memory.lt_length_give desk.memory context) name
  rwa [Memory.table_give] at added

theorem Sound.nodup_table (sound : Sound desk) {number : Nat} (known : number < desk.memory.length) :
    (Table.keys (desk.memory.table number)).Nodup := by
  apply sound.distinct
  rw [Memory.table, List.getElem?_eq_getElem known]
  exact List.getElem_mem known

theorem join_derived (sound : Sound desk) {number : Nat} (known : number < desk.memory.length) (context : Fields) :
    (desk.memory.give context).join number desk.memory.length =
      desk.memory.give context ++ [Table.merge (desk.memory.table number) (Table.merge [] context)] := by
  have given := Memory.lt_length_give desk.memory context
  rw [Memory.join_eq (Nat.lt_trans known given) given, Memory.table_give_of_lt known, Memory.table_give,
    Table.merge_nil (sound.nodup_table known)]

theorem join_called {number : Nat} (known : number < desk.memory.length) (extra : Fields) :
    (desk.memory.give extra).join desk.memory.length number =
      desk.memory.give extra ++ [Table.merge (Table.merge [] extra) (desk.memory.table number)] := by
  have given := Memory.lt_length_give desk.memory extra
  rw [Memory.join_eq given (Nat.lt_trans known given), Memory.table_give_of_lt known, Memory.table_give,
    Table.merge_nil (Memory.nodup_copy extra)]

theorem adds_derive (sound : Sound desk) {parent : Nat} {logger : Logger} (there : desk.logger? parent = some logger)
    (context : Fields) :
    Adds desk (desk.after (.derive parent context)) (logger.derive (Table.merge [] context)) := by
  obtain ⟨adapter, found, rfl⟩ := Option.map_eq_some_iff.1 there
  have own : adapter.context < desk.memory.length := sound.known adapter (List.mem_of_getElem? found)
  have once := Table.nodup_merge (sound.nodup_table own) (Table.merge [] context)
  have grown := (Memory.grows_give desk.memory context).trans (Memory.grows_concat _ once)
  have known : (desk.memory.give context).length < (desk.memory.give context ++
      [Table.merge (desk.memory.table adapter.context) (Table.merge [] context)]).length := by simp
  have added := adds_keep grown known adapter.name
  rw [Memory.table_last] at added
  rw [after, found]
  dsimp only
  rw [join_derived sound own]
  exact added

/-- A call makes tables, but no logger. -/
theorem after_call (sound : Sound desk) {caller : Nat} {logger : Logger} (there : desk.logger? caller = some logger)
    (extra : Fields) :
    desk.after (.call caller extra) =
      { desk with memory := desk.memory.give extra ++ [logger.merged (Table.merge [] extra)] } := by
  obtain ⟨adapter, found, rfl⟩ := Option.map_eq_some_iff.1 there
  have own : adapter.context < desk.memory.length := sound.known adapter (List.mem_of_getElem? found)
  rw [after, found]
  dsimp only
  rw [join_called own]
  rfl

theorem logger?_eq_none {number : Nat} : desk.logger? number = none ↔ desk.adapters[number]? = none :=
  Option.map_eq_none_iff

theorem Sound.after (sound : Sound desk) (act : Act) : Sound (desk.after act) ∧ Extends desk (desk.after act) := by
  cases act with
  | start name context => exact (adds_start desk name context).sound sound
  | derive parent context =>
    cases there : desk.logger? parent with
    | none =>
      rw [Desk.after, logger?_eq_none.1 there]
      exact ⟨sound, .refl desk⟩
    | some logger => exact (adds_derive sound there context).sound sound
  | call caller extra =>
    cases there : desk.logger? caller with
    | none =>
      rw [Desk.after, logger?_eq_none.1 there]
      exact ⟨sound, .refl desk⟩
    | some logger =>
      have grown : Memory.Grows desk.memory (desk.memory.give extra ++ [logger.merged (Table.merge [] extra)]) := by
        refine (Memory.grows_give desk.memory extra).trans (Memory.grows_concat _ ?_)
        exact Table.nodup_merge (Memory.nodup_copy extra) _
      rw [after_call sound there]
      refine ⟨⟨?_, grown.distinct sound.distinct⟩, ⟨grown.kept, List.prefix_refl _⟩⟩
      intro adapter member
      exact Nat.lt_of_lt_of_le (sound.known adapter member) grown.kept.length_le

theorem Sound.run (sound : Sound desk) (acts : List Act) : Sound (desk.run acts) ∧ Extends desk (desk.run acts) := by
  induction acts generalizing desk with
  | nil => exact ⟨sound, .refl desk⟩
  | cons act rest ih =>
    obtain ⟨still, once⟩ := sound.after act
    obtain ⟨done, later⟩ := ih still
    exact ⟨done, once.trans later⟩

theorem logger?_of_extends (sound : Sound desk) {later : Desk} (grown : Extends desk later) {number : Nat}
    {logger : Logger} (there : desk.logger? number = some logger) : later.logger? number = some logger := by
  obtain ⟨adapter, found, rfl⟩ := Option.map_eq_some_iff.1 there
  obtain ⟨⟨tables, memory⟩, ⟨others, adapters⟩⟩ := grown
  have own : adapter.context < desk.memory.length := sound.known adapter (List.mem_of_getElem? found)
  have inside : number < desk.adapters.length := (List.getElem?_eq_some_iff.1 found).1
  rw [logger?, ← adapters, List.getElem?_append_left inside, found, ← memory, Option.map_some, Memory.table_append own]

/-- Loggers in memory read as loggers whose contexts are plain values, and go on doing so. -/
structure Plain (desk : Desk) : Prop where
  start : ∀ name context, (Table.keys context).Nodup →
    (desk.after (.start name context)).logger? desk.adapters.length = some ⟨name, context⟩
  derive : ∀ parent logger, desk.logger? parent = some logger → ∀ context, (Table.keys context).Nodup →
    (desk.after (.derive parent context)).logger? desk.adapters.length = some (logger.derive context)
  call : ∀ caller logger, desk.logger? caller = some logger → ∀ extra, (Table.keys extra).Nodup →
    (desk.after (.call caller extra)).memory.getLast? = some (logger.merged extra)
  kept : ∀ number logger, desk.logger? number = some logger → ∀ acts, (desk.run acts).logger? number = some logger

theorem Sound.plain (sound : Sound desk) : Plain desk := by
  refine ⟨?_, ?_, ?_, ?_⟩
  · intro name context distinct
    rw [(adds_start desk name context).logger?, Table.merge_nil distinct]
  · intro parent logger there context distinct
    rw [(adds_derive sound there context).logger?, Table.merge_nil distinct]
  · intro caller logger there extra distinct
    rw [after_call sound there, List.getLast?_concat, Table.merge_nil distinct]
  · intro number logger there acts
    exact logger?_of_extends sound (sound.run acts).2 there

end Desk

end Staged

namespace Shadowing

/-- Names that the record itself uses at the top, and a rule. -/
def initial : Fields := [("level", .str "quiet"), ("rule", .str "indent"), ("error", .null)]

def extra : Fields := [("file_path", .str "a.py"), ("context", .int 2), ("source", .str "here"), ("timestamp", .int 0)]

end Shadowing

end Indentation.Log
