import PugLint.Session

/-!
# Registration and runs

A session takes a rule once: a name that is registered stays registered, with the
rule that came first, and a pass asks only the rules that have not run. So a
session in which all rules have run is not changed by registering them again and
running once more, which is why it can be kept.

* `register_of_contains`: a name that is registered is left out;
* `run_of_isProcessed`: a pass without rules that wait changes nothing;
* `Session.recheck`: a session that was checked with some rules is the same after
  being checked with them again.
-/

namespace PugLint.Session

variable {session : Session} {rule : Rule} {severity : Severity} {name : String}

/-! ### Registration -/

theorem register_of_contains (h : session.contains rule.name = true) :
    session.register rule severity = session :=
  if_pos h

theorem register_of_not_contains (h : session.contains rule.name = false) :
    session.register rule severity =
      { session with registrations := session.registrations ++ [{ rule, severity }] } := by
  rw [register, h]
  rfl

/-- Registering a rule adds its name and no other. -/
theorem contains_register (session : Session) (rule : Rule) (severity : Severity)
    (name : String) :
    (session.register rule severity).contains name =
      (session.contains name || rule.name == name) := by
  cases h : session.contains rule.name with
  | true =>
    rw [register_of_contains h]
    by_cases hn : rule.name = name
    · rw [← hn, h, Bool.true_or]
    · rw [beq_false_of_ne hn, Bool.or_false]
  | false =>
    rw [register_of_not_contains h]
    simp [contains]

@[simp]
theorem registerAll_nil (session : Session) : session.registerAll [] = session := rfl

@[simp]
theorem registerAll_cons (session : Session) (rule : Rule) (severity : Severity)
    (rules : List (Rule × Severity)) :
    session.registerAll ((rule, severity) :: rules) =
      (session.register rule severity).registerAll rules := rfl

theorem contains_registerAll (session : Session) (rules : List (Rule × Severity))
    (name : String) :
    (session.registerAll rules).contains name =
      (session.contains name || rules.any (·.1.name == name)) := by
  induction rules generalizing session with
  | nil => simp
  | cons entry rules ih =>
    obtain ⟨rule, severity⟩ := entry
    rw [registerAll_cons, ih, contains_register, List.any_cons, Bool.or_assoc]

/-- Rules whose names are registered are left out one after the other. -/
theorem registerAll_of_contains {rules : List (Rule × Severity)}
    (h : ∀ entry ∈ rules, session.contains entry.1.name = true) :
    session.registerAll rules = session := by
  induction rules with
  | nil => rfl
  | cons entry rules ih =>
    obtain ⟨rule, severity⟩ := entry
    rw [registerAll_cons, register_of_contains (h _ List.mem_cons_self)]
    exact ih fun entry hm => h entry (List.mem_cons_of_mem _ hm)

/-! ### Runs -/

@[simp]
theorem contains_run (session : Session) (name : String) :
    session.run.contains name = session.contains name := by
  simp [run, contains, List.any_map, Function.comp_def]

/-- After a pass no rule waits. -/
theorem isProcessed_run (session : Session) : session.run.isProcessed = true := by
  simp [run, isProcessed]

theorem pending_of_isProcessed (h : session.isProcessed = true) : session.pending = [] := by
  rw [isProcessed, List.all_eq_true] at h
  rw [pending, List.filter_eq_nil_iff]
  intro registration hm
  simp [h registration hm]

@[simp]
theorem findings_nil (document : Document) : findings document [] = [] := by
  simp [findings]

theorem run_of_isProcessed (h : session.isProcessed = true) : session.run = session := by
  have hdone : session.registrations.map ({ · with isDone := true }) =
      session.registrations := by
    refine (List.map_congr_left fun registration hm => ?_).trans (List.map_id _)
    have := List.all_eq_true.1 h registration hm
    rw [← this]
    rfl
  rw [run, pending_of_isProcessed h, findings_nil, hdone]
  simp [addNames]

/-! ### Kept sessions -/

/-- The session of a document after one pass of some rules. -/
def check (document : Document) (rules : List (Rule × Severity)) : Session :=
  ((start document).registerAll rules).run

/-- A session that was checked with some rules stays as it is when it is checked
    with them again. -/
theorem recheck (document : Document) (rules : List (Rule × Severity)) :
    ((check document rules).registerAll rules).run = check document rules := by
  have hcontains : ∀ entry ∈ rules, (check document rules).contains entry.1.name = true := by
    intro entry hm
    rw [check, contains_run, contains_registerAll, Bool.or_eq_true]
    exact .inr (List.any_eq_true.2 ⟨entry, hm, beq_self_eq_true _⟩)
  rw [registerAll_of_contains hcontains]
  exact run_of_isProcessed (isProcessed_run _)

end PugLint.Session
