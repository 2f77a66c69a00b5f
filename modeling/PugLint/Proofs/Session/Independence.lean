import Mathlib.Data.List.DropRight
import Mathlib.Data.List.Nodup
import PugLint.Proofs.Rule.Problems
import PugLint.Proofs.Session

/-!
# Independence of rules

All rules of a pass see the tokens together, and rules can come late. Still, what
a session holds of one rule is what that rule alone would have found: neither the
other rules nor the way in which they are spread over passes can be seen in it.

* `filterMap_findings`: what is taken from the findings of one rule comes from a
  pass of this rule alone;
* `Session.Apart`: a session holds, for each rule that has run, what a session
  with this rule alone holds, preserved by registration and by runs;
* `Session.apart_after`: so it is after any sequence of steps;
* `Session.ran?_after`: the rules that have run are those that were registered
  before the last run, each as it was registered first.
-/

namespace PugLint

/-! ### Findings of one rule -/

/-- What is taken from the findings of a pass is taken from a pass of fewer rules,
    if nothing is taken from the others. -/
theorem Session.filterMap_findings {β : Type} (document : Document)
    {registrations : List Registration} {take take' : Reporter × Finding → Option β}
    (keep : Registration → Bool)
    (h : ∀ registration ∈ registrations, ∀ event view,
      ∀ finding ∈ registration.rule.check event view, take (registration.reporter, finding) =
        if keep registration then take' (registration.reporter, finding) else none) :
    (findings document registrations).filterMap take =
      (findings document (registrations.filter keep)).filterMap take' := by
  -- At every place the findings are those of one rule after the other.
  have hplace (found : Registration → List Finding)
      (hfound : ∀ registration ∈ registrations, ∀ finding ∈ found registration,
        take (registration.reporter, finding) =
          if keep registration then take' (registration.reporter, finding) else none) :
      (registrations.flatMap fun registration =>
        (found registration).map (registration.reporter, ·)).filterMap take =
      ((registrations.filter keep).flatMap fun registration =>
        (found registration).map (registration.reporter, ·)).filterMap take' := by
    clear h
    induction registrations with
    | nil => rfl
    | cons registration registrations ih =>
      have hown := hfound registration List.mem_cons_self
      rw [List.flatMap_cons, List.filterMap_append, List.filterMap_map,
        ih fun other hm => hfound other (List.mem_cons_of_mem _ hm)]
      cases hk : keep registration with
      | true =>
        rw [List.filter_cons_of_pos hk, List.flatMap_cons, List.filterMap_append,
          List.filterMap_map]
        congr 1
        refine List.filterMap_congr fun finding hf => ?_
        rw [Function.comp_apply, hown finding hf, if_pos hk, Function.comp_apply]
      | false =>
        have hnone : (found registration).filterMap (take ∘ (registration.reporter, ·)) = [] := by
          refine List.filterMap_eq_nil_iff.2 fun finding hf => ?_
          rw [Function.comp_apply, hown finding hf, hk, if_neg Bool.false_ne_true]
        rw [List.filter_cons_of_neg (by simp [hk]), hnone, List.nil_append]
  rw [findings, findings, List.filterMap_append, List.filterMap_append]
  congr 1
  · exact hplace _ fun registration hm => h registration hm _ _
  · rw [List.filterMap_flatMap, List.filterMap_flatMap]
    congr 1
    funext view
    refine hplace _ fun registration hm finding hf => ?_
    obtain ⟨event, -, hf⟩ := List.mem_flatMap.1 hf
    exact h registration hm event view finding hf

/-- A diagnostic carries the name of the rule that reports it. -/
theorem Reporter.ruleName_of_diagnostic? {reporter : Reporter} {lines : LineIndex}
    {finding : Finding} {diagnostic : Diagnostic}
    (h : reporter.diagnostic? lines finding = some diagnostic) :
    diagnostic.ruleName = reporter.ruleName := by
  cases finding with
  | problem messageId data start stop fix =>
    rw [Reporter.diagnostic?, Option.some.injEq] at h
    rw [← h, Diagnostic.located]
    split <;> rfl
  | usesBinding name => cases h

namespace Session

/-- The diagnostics that some rules give in a pass. -/
def reported (document : Document) (registrations : List Registration) : List Diagnostic :=
  (findings document registrations).filterMap fun (reporter, finding) =>
    reporter.diagnostic? document.lines finding

/-- The uses of bindings that some rules note in a pass. -/
def noted (document : Document) (registrations : List Registration) : List String :=
  (findings document registrations).filterMap fun (_, finding) => finding.usedName?

/-- The diagnostics of one rule are those of a pass of this rule alone. -/
theorem filter_reported (document : Document) (registrations : List Registration)
    (name : String) :
    (reported document registrations).filter (·.ruleName == name) =
      reported document (registrations.filter (·.rule.name == name)) := by
  rw [reported, List.filter_filterMap]
  refine filterMap_findings document _ fun registration _ event view finding _ => ?_
  cases hd : registration.reporter.diagnostic? document.lines finding with
  | none => simp [hd]
  | some diagnostic =>
    have hname : diagnostic.ruleName = registration.rule.name :=
      Reporter.ruleName_of_diagnostic? hd
    simp only [hd, Option.filter_some, hname]

/-- Of the rules that there are, one alone notes uses. -/
theorem noted_eq (document : Document) {registrations : List Registration}
    (h : ∀ registration ∈ registrations, registration.rule.BuiltIn) :
    noted document registrations =
      noted document (registrations.filter (·.rule.name == Rule.noteUsedBindings.name)) := by
  refine filterMap_findings document _ fun registration hm event view finding hf => ?_
  dsimp only
  split
  · rfl
  · rename_i hne
    exact (h registration hm).reports (by simpa using hne) event view finding hf

/-! ### Registered rules -/

variable {session : Session} {rule : Rule} {severity : Severity} {name : String}

/-- The registration of a given name. -/
def registration? (session : Session) (name : String) : Option Registration :=
  session.registrations.find? (·.rule.name == name)

/-- The rule of a given name with its severity, if it is registered. -/
def registered? (session : Session) (name : String) : Option (Rule × Severity) :=
  (session.registration? name).map fun registration => (registration.rule, registration.severity)

/-- The rule of a given name with its severity, if it has run. -/
def ran? (session : Session) (name : String) : Option (Rule × Severity) :=
  ((session.registration? name).filter Registration.isDone).map fun registration =>
    (registration.rule, registration.severity)

/-- A rule that is registered late takes no place but a free one. -/
theorem registration?_register (session : Session) (rule : Rule) (severity : Severity)
    (name : String) :
    (session.register rule severity).registration? name =
      (session.registration? name).or
        (if rule.name == name then some { rule, severity } else none) := by
  cases h : session.contains rule.name with
  | true =>
    rw [register_of_contains h]
    split
    · rename_i hname
      rw [← LawfulBEq.eq_of_beq hname]
      rw [contains, ← List.isSome_find?] at h
      exact (Option.or_of_isSome h).symm
    · exact Option.or_none.symm
  | false =>
    rw [register_of_not_contains h, registration?, List.find?_append, List.find?_singleton]
    rfl

@[simp]
theorem registration?_run (session : Session) (name : String) :
    session.run.registration? name =
      (session.registration? name).map ({ · with isDone := true }) := by
  rw [run, registration?, List.find?_map]
  rfl

theorem registered?_register (session : Session) (rule : Rule) (severity : Severity)
    (name : String) :
    (session.register rule severity).registered? name =
      (session.registered? name).or
        (if rule.name == name then some (rule, severity) else none) := by
  rw [registered?, registration?_register, Option.map_or, registered?]
  split <;> rfl

@[simp]
theorem registered?_run (session : Session) (name : String) :
    session.run.registered? name = session.registered? name := by
  rw [registered?, registration?_run, Option.map_map]
  rfl

theorem registered?_registerAll (session : Session) (rules : List (Rule × Severity))
    (name : String) :
    (session.registerAll rules).registered? name =
      (session.registered? name).or (rules.find? (·.1.name == name)) := by
  induction rules generalizing session with
  | nil => exact Option.or_none.symm
  | cons entry rules ih =>
    obtain ⟨rule, severity⟩ := entry
    rw [registerAll_cons, ih, registered?_register, Option.or_assoc, List.find?_cons]
    cases rule.name == name <;> rfl

/-- A rule that has just been registered has not run. -/
@[simp]
theorem ran?_register (session : Session) (rule : Rule) (severity : Severity) (name : String) :
    (session.register rule severity).ran? name = session.ran? name := by
  rw [ran?, registration?_register, ran?]
  cases session.registration? name with
  | some registration => rfl
  | none =>
    rw [Option.none_or]
    split <;> rfl

@[simp]
theorem ran?_registerAll (session : Session) (rules : List (Rule × Severity)) (name : String) :
    (session.registerAll rules).ran? name = session.ran? name := by
  induction rules generalizing session with
  | nil => rfl
  | cons entry rules ih =>
    obtain ⟨rule, severity⟩ := entry
    rw [registerAll_cons, ih, ran?_register]

/-- After a pass all registered rules have run. -/
@[simp]
theorem ran?_run (session : Session) (name : String) :
    session.run.ran? name = session.registered? name := by
  rw [ran?, registration?_run, registered?]
  cases session.registration? name <;> rfl

/-! ### Passes of one rule -/

/-- Where names differ, a name has one registration at most. -/
theorem filter_name_eq_toList {registrations : List Registration}
    (h : (registrations.map (·.rule.name)).Nodup) (name : String) :
    registrations.filter (·.rule.name == name) =
      (registrations.find? (·.rule.name == name)).toList := by
  induction registrations with
  | nil => rfl
  | cons registration registrations ih =>
    rw [List.map_cons, List.nodup_cons] at h
    by_cases hname : registration.rule.name = name
    · have hnil : registrations.filter (·.rule.name == name) = [] := by
        refine List.filter_eq_nil_iff.2 fun other hm heq => h.1 ?_
        rw [hname, ← LawfulBEq.eq_of_beq heq]
        exact List.mem_map_of_mem (f := (·.rule.name)) hm
      rw [List.filter_cons_of_pos (by simpa using hname),
        List.find?_cons_of_pos (by simpa using hname), hnil]
      rfl
    · rw [List.filter_cons_of_neg (by simpa using hname),
        List.find?_cons_of_neg (by simpa using hname), ih h.2]

/-- What waits of one name is its registration, unless it has run. -/
theorem filter_pending (h : (session.registrations.map (·.rule.name)).Nodup) (name : String) :
    session.pending.filter (·.rule.name == name) =
      ((session.registration? name).filter (!·.isDone)).toList := by
  have hcomm : session.pending.filter (·.rule.name == name) =
      (session.registrations.filter (·.rule.name == name)).filter (!·.isDone) := by
    rw [pending, List.filter_filter, List.filter_filter]
    simp only [Bool.and_comm]
  rw [hcomm, filter_name_eq_toList h, registration?]
  cases List.find? _ _ with
  | none => rfl
  | some registration => cases hd : registration.isDone <;> simp [hd, Option.filter_some]

theorem diagnostics_run (session : Session) :
    session.run.diagnostics =
      session.diagnostics ++ reported session.document session.pending := rfl

theorem used_run (session : Session) :
    session.run.used = addNames session.used (noted session.document session.pending) := rfl

theorem diagnostics_check_singleton (document : Document) (rule : Rule) (severity : Severity) :
    (check document [(rule, severity)]).diagnostics =
      reported document [{ rule, severity }] := rfl

theorem used_check_singleton (document : Document) (rule : Rule) (severity : Severity) :
    (check document [(rule, severity)]).used =
      addNames [] (noted document [{ rule, severity }]) := rfl

/-! ### Sessions -/

/-- Every name has one registration at most, and what a session holds of a name is
    what a pass of its rule alone gives, if it has run, and nothing otherwise. -/
structure Apart (session : Session) : Prop where
  /-- The rules are some of those that there are. -/
  builtIn : ∀ registration ∈ session.registrations, registration.rule.BuiltIn
  /-- No name is registered twice. -/
  distinct : (session.registrations.map (·.rule.name)).Nodup
  /-- The diagnostics of a name are those of its rule alone. -/
  diagnostics : ∀ name, session.diagnostics.filter (·.ruleName == name) =
    (session.ran? name).elim [] fun entry => (check session.document [entry]).diagnostics
  /-- The noted uses are those of the rule that notes them. -/
  used : session.used = (session.ran? Rule.noteUsedBindings.name).elim [] fun entry =>
    (check session.document [entry]).used

theorem apart_start (document : Document) : (start document).Apart :=
  ⟨fun _ h => absurd h List.not_mem_nil, List.nodup_nil, fun _ => rfl, rfl⟩

@[simp]
theorem document_register (session : Session) (rule : Rule) (severity : Severity) :
    (session.register rule severity).document = session.document := by
  rw [register]
  split <;> rfl

@[simp]
theorem document_registerAll (session : Session) (rules : List (Rule × Severity)) :
    (session.registerAll rules).document = session.document := by
  induction rules generalizing session with
  | nil => rfl
  | cons entry rules ih =>
    obtain ⟨rule, severity⟩ := entry
    rw [registerAll_cons, ih, document_register]

theorem Apart.register (h : session.Apart) (hrule : rule.BuiltIn) (severity : Severity) :
    (session.register rule severity).Apart := by
  cases hc : session.contains rule.name with
  | true =>
    rw [register_of_contains hc]
    exact h
  | false =>
    have hran := ran?_register session rule severity
    rw [register_of_not_contains hc] at hran ⊢
    refine ⟨fun registration hm => ?_, ?_, fun name => ?_, ?_⟩
    · rcases List.mem_append.1 hm with hm | hm
      · exact h.builtIn registration hm
      · rw [List.mem_singleton.1 hm]
        exact hrule
    · rw [List.map_append, List.map_singleton, List.nodup_append]
      refine ⟨h.distinct, List.nodup_singleton _, fun name hm other ho => ?_⟩
      rw [List.mem_singleton.1 ho]
      rintro rfl
      -- The name would be among those that are registered.
      obtain ⟨registration, hr, heq⟩ := List.mem_map.1 hm
      rw [contains, List.any_eq_false] at hc
      exact hc registration hr (beq_iff_eq.2 heq)
    · rw [hran]
      exact h.diagnostics name
    · rw [hran]
      exact h.used

theorem Apart.registerAll (h : session.Apart) {rules : List (Rule × Severity)}
    (hrules : ∀ entry ∈ rules, entry.1.BuiltIn) : (session.registerAll rules).Apart := by
  induction rules generalizing session with
  | nil => exact h
  | cons entry rules ih =>
    obtain ⟨rule, severity⟩ := entry
    exact ih (h.register (hrules _ List.mem_cons_self) severity) fun entry hm =>
      hrules entry (List.mem_cons_of_mem _ hm)

/-- A pass adds, for each name, what its rule alone gives, and nothing for a name
    whose rule has run before. -/
theorem Apart.run (h : session.Apart) : session.run.Apart := by
  have hpending : ∀ registration ∈ session.pending, registration.rule.BuiltIn :=
    fun registration hm => h.builtIn registration (List.mem_filter.1 hm).1
  refine ⟨fun registration hm => ?_, ?_, fun name => ?_, ?_⟩
  · obtain ⟨before, hb, rfl⟩ := List.mem_map.1 hm
    exact h.builtIn before hb
  · simpa [Session.run, Function.comp_def] using h.distinct
  · rw [diagnostics_run, List.filter_append, filter_reported, filter_pending h.distinct,
      h.diagnostics, ran?_run, ran?, registered?]
    cases hr : session.registration? name with
    | none => simp [reported]
    | some registration =>
      obtain ⟨rule, severity, isDone⟩ := registration
      cases isDone with
      | true => simp [reported, Session.run, Option.filter_some]
      | false => simp [Option.filter_some, Session.run, diagnostics_check_singleton]
  · rw [used_run, noted_eq _ hpending, filter_pending h.distinct, h.used, ran?_run, ran?,
      registered?]
    cases hr : session.registration? Rule.noteUsedBindings.name with
    | none => simp [noted, addNames]
    | some registration =>
      obtain ⟨rule, severity, isDone⟩ := registration
      cases isDone with
      | true => simp [noted, addNames, Session.run, Option.filter_some]
      | false => simp [Option.filter_some, Session.run, used_check_singleton]

/-- The names that are noted differ. -/
theorem nodup_addNames {names : List String} (h : names.Nodup) (more : List String) :
    (addNames names more).Nodup := by
  induction more generalizing names with
  | nil => exact h
  | cons name more ih =>
    rw [addNames, List.foldl_cons]
    refine ih ?_
    split
    · exact h
    · rename_i hc
      rw [List.nodup_append]
      refine ⟨h, List.nodup_singleton _, fun other ho last hl => ?_⟩
      rw [List.mem_singleton.1 hl]
      rintro rfl
      exact hc (List.contains_iff_mem.2 ho)

theorem Apart.nodup_used (h : session.Apart) : session.used.Nodup := by
  rw [h.used]
  cases session.ran? Rule.noteUsedBindings.name with
  | none => exact List.nodup_nil
  | some entry => exact nodup_addNames List.nodup_nil _

end Session

/-! ### Steps -/

/-- What can be done with a session. -/
inductive SessionStep where
  /-- Registers a rule. -/
  | register (rule : Rule) (severity : Severity)
  /-- Registers the rules of a registry. -/
  | registerAll (registry : Registry)
  /-- Runs the rules that wait. -/
  | run

namespace SessionStep

/-- The rules that a step would register. -/
def rules : SessionStep → List (Rule × Severity)
  | register rule severity => [(rule, severity)]
  | registerAll registry => registry.rules
  | run => []

/-- Whether a step is a run. -/
def isRun : SessionStep → Bool
  | run => true
  | _ => false

/-- The steps up to the last run, that one included. -/
def upToLastRun (steps : List SessionStep) : List SessionStep :=
  steps.rdropWhile (!·.isRun)

/-- The rule of a given name in some steps, as it would be registered first. -/
def firstRegistered? (steps : List SessionStep) (name : String) : Option (Rule × Severity) :=
  (steps.flatMap rules).find? (·.1.name == name)

end SessionStep

namespace Session

/-- The session after a step. -/
def step (session : Session) : SessionStep → Session
  | .register rule severity => session.register rule severity
  | .registerAll registry => session.registerAll registry.rules
  | .run => session.run

/-- The session after some steps. -/
def after (session : Session) (steps : List SessionStep) : Session :=
  steps.foldl step session

variable {session : Session}

@[simp]
theorem document_step (session : Session) (step : SessionStep) :
    (session.step step).document = session.document := by
  cases step with
  | register rule severity => exact document_register session rule severity
  | registerAll registry => exact document_registerAll session registry.rules
  | run => rfl

@[simp]
theorem document_after (session : Session) (steps : List SessionStep) :
    (session.after steps).document = session.document := by
  induction steps generalizing session with
  | nil => rfl
  | cons step steps ih => exact (ih _).trans (document_step session step)

theorem Apart.step (h : session.Apart) {step : SessionStep}
    (hrules : ∀ entry ∈ step.rules, entry.1.BuiltIn) : (session.step step).Apart := by
  cases step with
  | register rule severity => exact h.register (hrules _ List.mem_cons_self) severity
  | registerAll registry => exact h.registerAll hrules
  | run => exact h.run

theorem Apart.after (h : session.Apart) {steps : List SessionStep}
    (hrules : ∀ step ∈ steps, ∀ entry ∈ step.rules, entry.1.BuiltIn) :
    (session.after steps).Apart := by
  induction steps generalizing session with
  | nil => exact h
  | cons step steps ih =>
    exact ih (h.step (hrules step List.mem_cons_self)) fun step hm =>
      hrules step (List.mem_cons_of_mem _ hm)

/-- A rule is registered as it was registered first. -/
theorem registered?_after (document : Document) (steps : List SessionStep) (name : String) :
    ((start document).after steps).registered? name =
      SessionStep.firstRegistered? steps name := by
  induction steps using List.reverseRecOn with
  | nil => rfl
  | append_singleton steps step ih =>
    rw [after, List.foldl_append, ← after, SessionStep.firstRegistered?, List.flatMap_append,
      List.find?_append, ← SessionStep.firstRegistered?, ← ih, List.flatMap_singleton]
    cases step with
    | register rule severity =>
      exact registered?_registerAll _ [(rule, severity)] name
    | registerAll registry => exact registered?_registerAll _ registry.rules name
    | run => exact (registered?_run _ _).trans Option.or_none.symm

/-- The rules that have run are those that were registered before the last run. -/
theorem ran?_after (document : Document) (steps : List SessionStep) (name : String) :
    ((start document).after steps).ran? name =
      SessionStep.firstRegistered? (SessionStep.upToLastRun steps) name := by
  induction steps using List.reverseRecOn with
  | nil => rfl
  | append_singleton steps step ih =>
    rw [after, List.foldl_append, ← after]
    cases step with
    | register rule severity =>
      rw [SessionStep.upToLastRun, List.rdropWhile_concat_pos _ _ _ rfl]
      exact (ran?_register _ rule severity name).trans ih
    | registerAll registry =>
      rw [SessionStep.upToLastRun, List.rdropWhile_concat_pos _ _ _ rfl]
      exact (ran?_registerAll _ registry.rules name).trans ih
    | run =>
      rw [SessionStep.upToLastRun, List.rdropWhile_concat_neg _ _ _ (by decide)]
      have hreg := registered?_after document (steps ++ [.run]) name
      rw [after, List.foldl_append, ← after] at hreg
      rw [← hreg]
      exact (ran?_run _ name).trans (registered?_run _ name).symm

end Session

end PugLint
