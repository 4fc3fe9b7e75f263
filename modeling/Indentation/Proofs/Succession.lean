import Indentation.Proofs.Lookup

/-! Plugins that take the place of others. A registration replaces what was registered for
its language, but an extension that only the replaced plugin listed still leads to the
language, and through it to the plugin that came instead. So a plugin lists the extension
that it is found by exactly as long as the language that listed it last has not been
registered again. -/

namespace Indentation

variable {α : Type}

def Plugin.Lists (plugin : Plugin α) (extension : String) : Prop :=
  ∃ row, plugin.extensions.row? = some row ∧ extension ∈ row

theorem Registration.lists_plugin {r : Registration α} {extension : String} :
    r.plugin.Lists extension ↔ extension ∈ r.extensions := by
  have texts : r.plugin.extensions.row? = some r.extensions := Value.row?_texts r.extensions
  constructor
  · rintro ⟨row, found, listed⟩
    obtain rfl := Option.some.inj (texts.symm.trans found)
    exact listed
  · intro listed
    exact ⟨r.extensions, texts, listed⟩

namespace Registry

/-- Since an extension was last listed, the language that listed it has not been registered
again. -/
def Standing (registrations : List (Registration α)) (extension : String) : Prop :=
  ∀ earlier claimant later, registrations = earlier ++ claimant :: later → extension ∈ claimant.extensions →
    (∀ r ∈ later, extension ∉ r.extensions) → ∀ r ∈ later, r.language ≠ claimant.language

theorem findRev?_eq_some_iff {p : Registration α → Bool} {registrations : List (Registration α)}
    {last : Registration α} :
    registrations.findRev? p = some last ↔
      ∃ earlier later, registrations = earlier ++ last :: later ∧ p last ∧ ∀ r ∈ later, ¬ p r := by
  rw [List.findRev?_eq_find?_reverse, List.find?_eq_some_iff_append]
  constructor
  · rintro ⟨holds, later, earlier, split, fails⟩
    refine ⟨earlier.reverse, later.reverse, ?_, holds, ?_⟩
    · rw [← List.reverse_reverse registrations, split]
      simp
    · intro r member
      simpa using fails r (List.mem_reverse.1 member)
  · rintro ⟨earlier, later, split, holds, fails⟩
    refine ⟨holds, later.reverse, earlier.reverse, ?_, ?_⟩
    · rw [split]
      simp
    · intro r member
      simpa using fails r (List.mem_reverse.1 member)

section Replacing

variable {earlier later : List (Registration α)} {claimant last : Registration α}
  (registered : (earlier ++ claimant :: later).findRev? (fun r => r.language = claimant.language) = some last)
include registered

theorem eq_of_not_replaced (alone : ∀ r ∈ later, r.language ≠ claimant.language) : last = claimant := by
  have found : (earlier ++ claimant :: later).findRev? (fun r => r.language = claimant.language) = some claimant :=
    findRev?_eq_some_iff.2 ⟨earlier, later, rfl, decide_eq_true rfl, fun r member => by simpa using alone r member⟩
  exact Option.some.inj (registered.symm.trans found)

theorem mem_later_of_replaced {r : Registration α} (member : r ∈ later) (again : r.language = claimant.language) :
    last ∈ later := by
  have inside : (later.findRev? fun r => r.language = claimant.language).isSome := by
    rw [List.findRev?_eq_find?_reverse, List.find?_isSome]
    exact ⟨r, List.mem_reverse.2 member, decide_eq_true again⟩
  obtain ⟨found, here⟩ := Option.isSome_iff_exists.1 inside
  obtain ⟨before, after, rfl, holds, fails⟩ := findRev?_eq_some_iff.1 here
  have same : (earlier ++ claimant :: (before ++ found :: after)).findRev?
      (fun r => r.language = claimant.language) = some found :=
    findRev?_eq_some_iff.2 ⟨earlier ++ claimant :: before, after, by simp, holds, fails⟩
  obtain rfl := Option.some.inj (registered.symm.trans same)
  exact List.mem_append_right _ List.mem_cons_self

end Replacing

/-- A file is found a plugin that lists its extension exactly if the language that listed
the extension last has not been registered again since. -/
theorem find_lists_iff_standing (registrations : List (Registration α)) (path : String) :
    ∃ registry answer log,
      registerAll registrations {} = .ok () registry ∧
      find path registry = .ok answer { registry with log := log } ∧
      ((∀ plugin, answer = some plugin → plugin.Lists (Path.parse path).suffix) ↔
        Standing registrations (Path.parse path).suffix) := by
  obtain ⟨registry, registered, records⟩ := records_registerAll registrations
  obtain ⟨log, answered⟩ := find_eq registry path
  refine ⟨registry, registry.pluginFor path, log, registered, answered, ?_⟩
  constructor
  · rintro lists earlier claimant later rfl listed unlisted r member again
    have found : (earlier ++ claimant :: later).findRev? (fun r => (Path.parse path).suffix ∈ r.extensions) =
        some claimant :=
      findRev?_eq_some_iff.2 ⟨earlier, later, rfl, decide_eq_true listed, fun r member => by simpa using unlisted r member⟩
    obtain ⟨last, named⟩ := Records.exists_last found
    have answer := lists last.plugin (records.pluginFor_of_claimed found named)
    exact unlisted last (mem_later_of_replaced named member again) (Registration.lists_plugin.1 answer)
  · intro standing plugin answer
    cases found : registrations.findRev? fun r => (Path.parse path).suffix ∈ r.extensions with
    | none =>
      have none : registry.pluginFor path = none := by
        rw [records.pluginFor_eq_none_iff]
        rw [List.findRev?_eq_find?_reverse, List.find?_eq_none] at found
        simpa using found
      cases none.symm.trans answer
    | some claimant =>
      obtain ⟨last, named⟩ := Records.exists_last found
      obtain ⟨earlier, later, rfl, listed, unlisted⟩ := findRev?_eq_some_iff.1 found
      have alone := standing earlier claimant later rfl (of_decide_eq_true listed)
        fun r member => by simpa using unlisted r member
      obtain rfl := eq_of_not_replaced named alone
      obtain rfl := Option.some.inj ((records.pluginFor_of_claimed found named).symm.trans answer)
      exact Registration.lists_plugin.2 (of_decide_eq_true listed)

def narrowed : List (Registration Nat) := [⟨"java", [".java", ".jav"], 0⟩, ⟨"java", [".java"], 1⟩]

/-- The second plugin is found by an extension that only the first one lists. -/
theorem find_narrowed :
    ∃ registry plugin, registerAll narrowed {} = .ok () registry ∧
      find "Main.jav" registry = .ok (some plugin) registry ∧
      plugin.frontEnd = 1 ∧ ¬ plugin.Lists (Path.parse "Main.jav").suffix := by
  have suffix : (Path.parse "Main.jav").suffix = ".jav" := rfl
  have claimed : narrowed.findRev? (fun r => (Path.parse "Main.jav").suffix ∈ r.extensions) =
      some ⟨"java", [".java", ".jav"], 0⟩ := by
    rw [suffix]
    rfl
  have named : narrowed.findRev? (fun r => r.language = "java") = some ⟨"java", [".java"], 1⟩ := rfl
  obtain ⟨registry, registered, records⟩ := records_registerAll narrowed
  have found := records.pluginFor_of_claimed claimed named
  refine ⟨registry, Registration.plugin ⟨"java", [".java"], 1⟩, registered, ?_, rfl, ?_⟩
  · have current : (get : Action Nat (Registry Nat)) registry = .ok registry registry := rfl
    simp only [find, bind, EStateM.bind, current, found]
    rfl
  · rw [Registration.lists_plugin, suffix]
    decide

end Registry
end Indentation
