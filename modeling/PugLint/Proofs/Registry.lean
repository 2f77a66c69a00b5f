import Mathlib.Data.List.Nodup
import PugLint.Registry

/-!
# Histories of registries

A registry is reached from an empty one by steps: a rule is registered, with or without a
severity, or the rule of a name is removed. For each name, the registry knows the rule that was
registered last since the name was removed, and the severity that was given last since then. A
rule that is registered again without a severity keeps the one that it was given.

* `Registry.Records`: what a registry knows of its history;
* `Registry.Records.after`: the steps keep it.
-/

namespace PugLint

/-- A change of a registry. -/
inductive RegistryStep where
  /-- A rule is registered. -/
  | register (rule : Rule)
  /-- A rule is registered and given a severity. -/
  | registerWith (rule : Rule) (severity : Severity)
  /-- The rule of a name is removed. -/
  | erase (name : String)

/-- The registrations of a name since it was last removed, each with the severity that it gave;
    `before` are those in front of the steps. -/
def registrationsFrom (name : String) (before : List (Rule × Option Severity)) :
    List RegistryStep → List (Rule × Option Severity)
  | [] => before
  | .register rule :: steps =>
    registrationsFrom name (if rule.name = name then before ++ [(rule, none)] else before) steps
  | .registerWith rule severity :: steps =>
    registrationsFrom name (if rule.name = name then before ++ [(rule, some severity)] else before)
      steps
  | .erase other :: steps => registrationsFrom name (if other = name then [] else before) steps

/-- The registrations of a name since it was last removed. -/
def registrationsOf (name : String) (steps : List RegistryStep) : List (Rule × Option Severity) :=
  registrationsFrom name [] steps

/-- The entry that registrations of one name lead to: the last rule, with the severity that was
    given last. -/
def entryOf? (registrations : List (Rule × Option Severity)) : Option RegistryEntry :=
  registrations.getLast?.map fun last =>
    ⟨last.1, (registrations.filterMap Prod.snd).getLast?⟩

theorem entryOf?_concat_none (registrations : List (Rule × Option Severity)) (rule : Rule) :
    entryOf? (registrations ++ [(rule, none)]) =
      some ⟨rule, (entryOf? registrations).bind RegistryEntry.given⟩ := by
  have hgiven : (registrations ++ [(rule, (none : Option Severity))]).filterMap Prod.snd =
      registrations.filterMap Prod.snd := by simp
  rw [entryOf?, hgiven, List.getLast?_concat, entryOf?]
  -- Without any registration there is no severity either.
  rcases List.eq_nil_or_concat registrations with rfl | ⟨others, last, rfl⟩
  · rfl
  · rw [List.concat_eq_append, List.getLast?_concat]
    rfl

theorem entryOf?_concat_some (registrations : List (Rule × Option Severity)) (rule : Rule)
    (severity : Severity) :
    entryOf? (registrations ++ [(rule, some severity)]) = some ⟨rule, some severity⟩ := by
  have hgiven : (registrations ++ [(rule, some severity)]).filterMap Prod.snd =
      registrations.filterMap Prod.snd ++ [severity] := by simp
  rw [entryOf?, hgiven, List.getLast?_concat, List.getLast?_concat]
  rfl

theorem of_entryOf? {registrations : List (Rule × Option Severity)} {entry : RegistryEntry}
    (h : entryOf? registrations = some entry) :
    (∃ given, registrations.getLast? = some (entry.rule, given)) ∧
      entry.given = (registrations.filterMap Prod.snd).getLast? := by
  obtain ⟨⟨rule, given⟩, hlast, rfl⟩ := Option.map_eq_some_iff.1 h
  exact ⟨⟨given, hlast⟩, rfl⟩

/-- The last severity is that of the last registration, unless only earlier ones give one. -/
theorem getLast?_given {registrations : List (Rule × Option Severity)} {rule : Rule}
    {given : Option Severity} (hlast : registrations.getLast? = some (rule, given))
    (h : given ≠ none ∨ ∀ registration ∈ registrations, registration.2 = none) :
    (registrations.filterMap Prod.snd).getLast? = given := by
  rcases h with hgiven | hplain
  · obtain ⟨severity, rfl⟩ := Option.ne_none_iff_exists'.1 hgiven
    obtain ⟨others, rfl⟩ := List.getLast?_eq_some_iff.1 hlast
    simp
  · have hgiven : given = none := hplain _ (List.mem_of_getLast? hlast)
    rw [List.filterMap_eq_nil_iff.2 hplain, hgiven]
    rfl

namespace Registry

/-- The registry after a step. -/
def step (registry : Registry) : RegistryStep → Registry
  | .register rule => registry.register rule
  | .registerWith rule severity => registry.registerWith rule severity
  | .erase name => registry.erase name

/-- The registry after steps. -/
def after (registry : Registry) (steps : List RegistryStep) : Registry :=
  steps.foldl step registry

/-- The registry that a history starts from: that of a preset, or an empty one. -/
def initial (preset : Option Preset) : Registry :=
  preset.elim {} ofPreset

/-- The steps of a whole history, those of its preset in front. -/
def history (preset : Option Preset) (steps : List RegistryStep) : List RegistryStep :=
  (preset.elim [] Preset.rules).map .register ++ steps

theorem initial_after (preset : Option Preset) (steps : List RegistryStep) :
    (initial preset).after steps = ({} : Registry).after (history preset steps) := by
  cases preset with
  | none => rfl
  | some preset =>
    rw [history, after, after, List.foldl_append, List.foldl_map]
    rfl

/-! ### Entries by name -/

/-- The names of the rules. -/
def names (registry : Registry) : List String :=
  registry.entries.map (·.rule.name)

/-- The entry of a name. -/
def find? (registry : Registry) (name : String) : Option RegistryEntry :=
  registry.entries.find? (·.rule.name == name)

variable (registry : Registry) (rule : Rule) (severity : Severity) (name : String)

theorem contains_eq_isSome : registry.contains name = (registry.find? name).isSome := by
  rw [contains, find?, List.isSome_find?]

/-- Entries that keep their names are found as before. -/
theorem find?_map {change : RegistryEntry → RegistryEntry}
    (h : ∀ entry, (change entry).rule.name = entry.rule.name) :
    find? ⟨registry.entries.map change⟩ name = (registry.find? name).map change := by
  rw [find?, find?, List.find?_map]
  congr 2
  funext entry
  rw [Function.comp_apply, h]

theorem names_map {change : RegistryEntry → RegistryEntry}
    (h : ∀ entry, (change entry).rule.name = entry.rule.name) :
    names ⟨registry.entries.map change⟩ = registry.names := by
  rw [names, names, List.map_map]
  exact List.map_congr_left fun entry _ => h entry

/-- A rule takes the place of another one of its name. -/
theorem name_replace (entry : RegistryEntry) :
    (if entry.rule.name == rule.name then { entry with rule } else entry).rule.name =
      entry.rule.name := by
  split
  · rename_i h
    exact (LawfulBEq.eq_of_beq h).symm
  · rfl

theorem name_giveSeverity (entry : RegistryEntry) :
    (if entry.rule.name == rule.name then { entry with given := some severity }
      else entry).rule.name = entry.rule.name := by
  split <;> rfl

theorem name_of_find? {entry : RegistryEntry} (h : registry.find? name = some entry) :
    entry.rule.name = name :=
  beq_iff_eq.1 (List.find?_some (p := fun entry : RegistryEntry => entry.rule.name == name) h)

/-- What changes the entry of one name alone leaves the other entries. -/
theorem map_find?_of_ne (f : RegistryEntry → RegistryEntry) (h : rule.name ≠ name) :
    ((registry.find? name).map fun entry =>
      if entry.rule.name == rule.name then f entry else entry) = registry.find? name := by
  cases hentry : registry.find? name with
  | none => rfl
  | some entry =>
    rw [Option.map_some, if_neg]
    rw [name_of_find? _ _ hentry, beq_iff_eq]
    exact Ne.symm h

theorem find?_register : (registry.register rule).find? name =
    if rule.name = name then some ⟨rule, (registry.find? name).bind RegistryEntry.given⟩
    else registry.find? name := by
  rw [register]
  split
  · rename_i hcontains
    rw [find?_map _ _ (name_replace rule)]
    rw [contains_eq_isSome] at hcontains
    split
    · rename_i heq
      subst heq
      obtain ⟨entry, hentry⟩ := Option.isSome_iff_exists.1 hcontains
      rw [hentry, Option.map_some, if_pos (beq_iff_eq.2 (name_of_find? _ _ hentry))]
      rfl
    · rename_i hne
      exact map_find?_of_ne _ _ _ _ hne
  · rename_i hcontains
    rw [contains_eq_isSome, Option.not_isSome_iff_eq_none] at hcontains
    rw [find?, List.find?_append]
    split
    · rename_i heq
      subst heq
      rw [hcontains, ← find?, hcontains, List.find?_singleton, if_pos (beq_iff_eq.2 rfl)]
      rfl
    · rename_i hne
      rw [List.find?_singleton, if_neg (by rwa [beq_iff_eq]), Option.or_none, ← find?]

theorem find?_registerWith : (registry.registerWith rule severity).find? name =
    if rule.name = name then some ⟨rule, some severity⟩ else registry.find? name := by
  rw [registerWith, find?_map _ _ (name_giveSeverity rule severity), find?_register]
  split
  · rw [Option.map_some, if_pos (beq_iff_eq.2 rfl)]
  · rename_i hne
    exact map_find?_of_ne _ _ _ _ hne

theorem find?_erase (other : String) : (registry.erase other).find? name =
    if other = name then none else registry.find? name := by
  rw [erase, find?, List.find?_filter]
  split
  · rename_i heq
    subst heq
    refine List.find?_eq_none.2 fun entry _ => ?_
    simp
  · rename_i hne
    rw [find?]
    congr 1
    funext entry
    by_cases hname : entry.rule.name = name
    · simp [hname, Ne.symm hne]
    · simp [hname]

theorem nodup_names_register (h : registry.names.Nodup) : (registry.register rule).names.Nodup := by
  rw [register]
  split
  · rwa [names_map _ (name_replace rule)]
  · rename_i hcontains
    rw [names, List.map_append]
    refine List.nodup_append.2 ⟨h, List.nodup_singleton _, fun other hother _ hname => ?_⟩
    obtain ⟨entry, hentry, rfl⟩ := List.mem_map.1 hother
    rw [List.map_singleton, List.mem_singleton] at hname
    intro heq
    exact hcontains (List.any_eq_true.2 ⟨entry, hentry, beq_iff_eq.2 (heq.trans hname)⟩)

theorem nodup_names_registerWith (h : registry.names.Nodup) :
    (registry.registerWith rule severity).names.Nodup := by
  rw [registerWith, names_map _ (name_giveSeverity rule severity)]
  exact nodup_names_register registry rule h

theorem nodup_names_erase (h : registry.names.Nodup) : (registry.erase name).names.Nodup :=
  h.sublist (List.filter_sublist.map _)

/-! ### Histories -/

/-- A registry holds one rule for each name, as the registrations tell. -/
structure Records (registry : Registry)
    (registrations : String → List (Rule × Option Severity)) : Prop where
  /-- Each name is that of one rule. -/
  nodup : registry.names.Nodup
  /-- The entries. -/
  find?_eq : ∀ name, registry.find? name = entryOf? (registrations name)

variable {registry}

/-- A step records what it does. -/
theorem Records.step {registrations : String → List (Rule × Option Severity)}
    (h : registry.Records registrations) (step : RegistryStep) :
    (registry.step step).Records fun name =>
      registrationsFrom name (registrations name) [step] := by
  cases step with
  | register rule =>
    refine ⟨nodup_names_register registry rule h.nodup, fun name => ?_⟩
    rw [Registry.step, find?_register, h.find?_eq]
    simp only [registrationsFrom]
    split
    · rw [entryOf?_concat_none]
    · rfl
  | registerWith rule severity =>
    refine ⟨nodup_names_registerWith registry rule severity h.nodup, fun name => ?_⟩
    rw [Registry.step, find?_registerWith, h.find?_eq]
    simp only [registrationsFrom]
    split
    · rw [entryOf?_concat_some]
    · rfl
  | erase other =>
    refine ⟨nodup_names_erase registry other h.nodup, fun name => ?_⟩
    rw [Registry.step, find?_erase, h.find?_eq]
    simp only [registrationsFrom]
    split <;> rfl

theorem registrationsFrom_cons (before : List (Rule × Option Severity)) (step : RegistryStep)
    (steps : List RegistryStep) :
    registrationsFrom name before (step :: steps) =
      registrationsFrom name (registrationsFrom name before [step]) steps := by
  cases step <;> rfl

/-- All steps of a history are recorded. -/
theorem Records.after {registrations : String → List (Rule × Option Severity)}
    (h : registry.Records registrations) (steps : List RegistryStep) :
    (registry.after steps).Records fun name =>
      registrationsFrom name (registrations name) steps := by
  induction steps generalizing registry registrations with
  | nil => exact h
  | cons step steps ih =>
    have hsteps := ih (h.step step)
    simp only [← registrationsFrom_cons] at hsteps
    exact hsteps

theorem records_after (preset : Option Preset) (steps : List RegistryStep) :
    ((initial preset).after steps).Records fun name =>
      registrationsOf name (history preset steps) := by
  rw [initial_after]
  have hempty : ({} : Registry).Records fun _ => [] := ⟨List.nodup_nil, fun _ => rfl⟩
  exact hempty.after _

/-- A rule is the entry of its name. -/
theorem Records.find?_of_mem {registrations : String → List (Rule × Option Severity)}
    (h : registry.Records registrations) {entry : RegistryEntry}
    (hentry : entry ∈ registry.entries) : registry.find? entry.rule.name = some entry := by
  cases hfound : registry.find? entry.rule.name with
  | none => exact absurd (beq_iff_eq.2 rfl) (List.find?_eq_none.1 hfound entry hentry)
  | some found =>
    have hname := name_of_find? _ _ hfound
    rw [List.inj_on_of_nodup_map h.nodup (List.mem_of_find?_eq_some hfound) hentry hname]

/-! ### Severities -/

/-- After any history, each name is that of one rule. The rule is the one that was registered last,
    and it runs with the severity that was given last since the name was removed, or with its own
    if none was given since then. That is the severity of the last registration, unless this one
    gives none and an earlier one does. -/
theorem severity_after (preset : Option Preset) (steps : List RegistryStep) :
    let registry := (initial preset).after steps
    (registry.rules.map (·.1.name)).Nodup ∧
      ∀ rule severity, (rule, severity) ∈ registry.rules →
        let registrations := registrationsOf rule.name (history preset steps)
        ∃ given, registrations.getLast? = some (rule, given) ∧
          severity =
            (registrations.filterMap Prod.snd).getLast?.getD rule.info.severity ∧
          (given ≠ none ∨ (∀ registration ∈ registrations, registration.2 = none) →
            severity = given.getD rule.info.severity) := by
  intro registry
  have hrecords := records_after preset steps
  refine ⟨?_, fun rule severity hm => ?_⟩
  · rw [rules, List.map_map]
    exact hrecords.nodup
  · intro registrations
    obtain ⟨entry, hentry, hpair⟩ := List.mem_map.1 hm
    cases hpair
    have hfound := hrecords.find?_eq entry.rule.name
    rw [hrecords.find?_of_mem hentry] at hfound
    obtain ⟨⟨given, hlast⟩, hgiven⟩ := of_entryOf? hfound.symm
    refine ⟨given, hlast, ?_, fun hcondition => ?_⟩
    · rw [RegistryEntry.severity, hgiven]
    · rw [RegistryEntry.severity, hgiven, getLast?_given hlast hcondition]

/-- A rule that is made a warning, removed, and made a warning once more. -/
theorem severity_after_removal :
    let steps : List RegistryStep :=
      [.registerWith .requireKey .warning, .erase "vue/require-v-for-key", .register .requireKey,
        .registerWith .requireKey .warning]
    (((initial (some .essential)).after steps).rules.map (·.1.name)).Nodup ∧
      (.requireKey, .warning) ∈ ((initial (some .essential)).after steps).rules ∧
      ∃ given, (registrationsOf Rule.requireKey.name (history (some .essential) steps)).getLast? =
          some (.requireKey, given) ∧
        Severity.warning = given.getD Rule.requireKey.info.severity := by
  intro steps
  obtain ⟨hnodup, hrules⟩ := severity_after (some .essential) steps
  have hmem : (.requireKey, .warning) ∈ ((initial (some .essential)).after steps).rules :=
    List.mem_of_getLast? rfl
  obtain ⟨given, hlast, -, hseverity⟩ := hrules .requireKey .warning hmem
  have hgiven : given = some .warning := (congrArg Prod.snd (Option.some.inj hlast)).symm
  exact ⟨hnodup, hmem, given, hlast, hseverity (.inl (by simp [hgiven]))⟩

/-- The last registration does not always tell the severity: a rule that is an error by itself is
    made a warning, and it stays one when it is registered again. -/
theorem severity_after_fails :
    let steps : List RegistryStep :=
      [.registerWith .requireKey .warning, .register .requireKey]
    let registry := (initial none).after steps
    registry.rules = [(.requireKey, .warning)] ∧
      (registrationsOf Rule.requireKey.name (history none steps)).getLast? =
        some (.requireKey, none) ∧
      Rule.requireKey.info.severity = .error :=
  ⟨rfl, rfl, rfl⟩

end Registry

end PugLint
