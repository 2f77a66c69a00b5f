import PugLint.Proofs.Linter.Caching
import PugLint.Proofs.Session.Independence

/-!
# Results of one rule

The diagnostics of a result are sorted by their starts, and those with equal
starts stay in the order in which they came up. What a result says of one rule is
therefore what this rule alone says, whichever other rules a linter has and in
whatever order.

* `filter_mergeSort`: a stable sort keeps the order of what is selected;
* `LintResult.restrict`: what a result says of one rule;
* `rules_independent`: rules do not interfere, in sessions and in linters.
-/

namespace PugLint

/-- Selecting from a sorted list gives the selected elements sorted. -/
theorem filter_mergeSort {α : Type} {le : α → α → Bool}
    (htrans : ∀ a b c, le a b = true → le b c = true → le a c = true)
    (htotal : ∀ a b, (le a b || le b a) = true) (p : α → Bool) (as : List α) :
    (as.mergeSort le).filter p = (as.filter p).mergeSort le := by
  induction as with
  | nil => simp
  | cons a as ih =>
    obtain ⟨left, right, hsort, hrest, hleft⟩ := List.mergeSort_cons htrans htotal a as
    by_cases hp : p a = true
    · obtain ⟨left', right', hsort', hrest', hleft'⟩ :=
        List.mergeSort_cons htrans htotal a (as.filter p)
      have hparts : left.filter p ++ right.filter p = left' ++ right' := by
        rw [← List.filter_append, ← hrest, ih, hrest']
      -- Both sides are cut where the first element not before `a` stands.
      have hright : ∀ b ∈ right.filter p, le a b = true := by
        intro b hb
        have hs := List.pairwise_mergeSort htrans htotal (a :: as)
        rw [hsort, List.pairwise_append, List.pairwise_cons] at hs
        exact hs.2.1.1 b (List.mem_filter.1 hb).1
      have hright' : ∀ b ∈ right', le a b = true := by
        have hs := List.pairwise_mergeSort htrans htotal (a :: as.filter p)
        rw [hsort', List.pairwise_append, List.pairwise_cons] at hs
        exact hs.2.1.1
      have hcut {front back : List α} (hf : ∀ b ∈ front, (!le a b) = true)
          (hb : ∀ b ∈ back, le a b = true) :
          (front ++ back).filter (!le a ·) = front ∧ (front ++ back).filter (le a ·) = back := by
        rw [List.filter_append, List.filter_append, List.filter_eq_self.2 hf,
          List.filter_eq_self.2 hb]
        refine ⟨?_, ?_⟩
        · rw [List.filter_eq_nil_iff.2 fun b hm => by simp [hb b hm], List.append_nil]
        · rw [List.filter_eq_nil_iff.2 fun b hm => by simpa using hf b hm, List.nil_append]
      obtain ⟨hf, hb⟩ := hcut (fun b hm => hleft b (List.mem_filter.1 hm).1) hright
      obtain ⟨hf', hb'⟩ := hcut hleft' hright'
      rw [hparts] at hf hb
      rw [List.filter_cons_of_pos hp, hsort, hsort', List.filter_append,
        List.filter_cons_of_pos hp, ← hf.symm.trans hf', ← hb.symm.trans hb']
    · rw [List.filter_cons_of_neg hp, hsort, ← ih, hrest, List.filter_append,
        List.filter_append, List.filter_cons_of_neg hp]

/-- Selecting from diagnostics in the order of their starts. -/
theorem filter_sortedByStart (p : Diagnostic → Bool) (diagnostics : List Diagnostic) :
    (diagnostics.mergeSort fun a b => a.start ≤ b.start).filter p =
      (diagnostics.filter p).mergeSort fun a b => a.start ≤ b.start := by
  refine filter_mergeSort (fun a b c hab hbc => ?_) (fun a b => ?_) _ _
  · simp only [decide_eq_true_eq] at hab hbc ⊢
    exact Nat.le_trans hab hbc
  · simpa using Nat.le_total a.start b.start

/-- What a result says of one rule: its diagnostics, and the used bindings if it
    is the rule that notes them. -/
def LintResult.restrict (result : LintResult) (name : String) : LintResult where
  filename := result.filename
  diagnostics := result.diagnostics.filter (·.ruleName == name)
  usedBindings := if name == Rule.noteUsedBindings.name then result.usedBindings else []

theorem LintResult.restrict_ofDiagnostics (filename : String) (diagnostics : List Diagnostic)
    (used : List String) (name : String) :
    (ofDiagnostics filename diagnostics used).restrict name =
      ofDiagnostics filename (diagnostics.filter (·.ruleName == name))
        (if name == Rule.noteUsedBindings.name then used else []) := by
  rw [restrict, ofDiagnostics, filter_sortedByStart]
  rfl

/-- The rules that have run in a checked session are those it was checked with. -/
theorem Session.ran?_check (document : Document) (rules : List (Rule × Severity))
    (name : String) :
    (check document rules).ran? name = rules.find? (·.1.name == name) := by
  rw [check, ran?_run, registered?_registerAll]
  rfl

/-- What a checked session holds of a name depends on the rule of this name alone. -/
theorem Session.check_congr (document : Document) {rules rules' : List (Rule × Severity)}
    (h : ∀ entry ∈ rules, entry.1.BuiltIn) (h' : ∀ entry ∈ rules', entry.1.BuiltIn)
    {name : String} (hname : rules.find? (·.1.name == name) = rules'.find? (·.1.name == name)) :
    (check document rules).diagnostics.filter (·.ruleName == name) =
        (check document rules').diagnostics.filter (·.ruleName == name) ∧
      (name = Rule.noteUsedBindings.name →
        (check document rules).used = (check document rules').used) := by
  have hdocument (rules : List (Rule × Severity)) : (check document rules).document = document :=
    document_registerAll _ rules
  have hapart : (check document rules).Apart := ((apart_start document).registerAll h).run
  have hapart' : (check document rules').Apart := ((apart_start document).registerAll h').run
  refine ⟨?_, ?_⟩
  · rw [hapart.diagnostics, hapart'.diagnostics, ran?_check, ran?_check, hname, hdocument,
      hdocument]
  · rintro rfl
    rw [hapart.used, hapart'.used, ran?_check, ran?_check, hname, hdocument, hdocument]

/-- What a linter says of a name depends on the rule of this name alone. -/
theorem Linter.restrict_lint_congr [Caching] [ScriptParser] {registry registry' : Registry}
    (h : ∀ entry ∈ registry.rules, entry.1.BuiltIn)
    (h' : ∀ entry ∈ registry'.rules, entry.1.BuiltIn) {name : String}
    (hname : registry.rules.find? (·.1.name == name) =
      registry'.rules.find? (·.1.name == name)) (mode : LintMode) (source filename : String) :
    ((ofRegistry registry).lint .start mode source filename).1.restrict name =
      ((ofRegistry registry').lint .start mode source filename).1.restrict name := by
  cases hblock : mode.block? source with
  | none =>
    obtain ⟨result, hresult⟩ := exists_lint_of_block?_eq_none hblock filename
    rw [hresult, hresult]
  | some found =>
    obtain ⟨block, script⟩ := found
    obtain ⟨hdiagnostics, hused⟩ := Session.check_congr
      (.ofStream source block script (TokenStream.ofBlock block)) h h' hname
    rw [lint_ofRegistry _ hblock, lint_ofRegistry _ hblock, LintResult.restrict_ofDiagnostics,
      LintResult.restrict_ofDiagnostics, Registry.check, Registry.check, hdiagnostics]
    split
    · rename_i heq
      rw [hused (LawfulBEq.eq_of_beq heq)]
    · rfl

/-- Rules do not interfere and run once. After any steps, the diagnostics of a name
    are those of a session in which its rule alone is registered, as it was
    registered first, and run once, if it was registered before the last run, and
    none otherwise. A registered name is not registered again, a run without rules
    that wait changes nothing, and the used bindings, no two of them equal, are
    those that `Rule.noteUsedBindings` alone notes. So what a linter says of a name
    depends neither on its other rules nor on their order. -/
theorem rules_independent [Caching] [ScriptParser] (document : Document)
    (steps : List SessionStep)
    (hsteps : ∀ step ∈ steps, ∀ entry ∈ step.rules, entry.1.BuiltIn) :
    let session := (Session.start document).after steps
    let ran := SessionStep.firstRegistered? (SessionStep.upToLastRun steps)
    (∀ name, session.diagnostics.filter (·.ruleName == name) =
      (ran name).elim [] fun entry => (Session.check document [entry]).diagnostics) ∧
    (∀ rule severity, session.contains rule.name = true →
      session.register rule severity = session) ∧
    (session.isProcessed = true → session.run = session) ∧
    session.used.Nodup ∧
    session.used = (ran Rule.noteUsedBindings.name).elim [] (fun entry =>
      (Session.check document [entry]).used) ∧
    ∀ registry registry' : Registry, (∀ entry ∈ registry.rules, entry.1.BuiltIn) →
      (∀ entry ∈ registry'.rules, entry.1.BuiltIn) → ∀ name,
      registry.rules.find? (·.1.name == name) = registry'.rules.find? (·.1.name == name) →
      ∀ mode source filename,
        ((Linter.ofRegistry registry).lint .start mode source filename).1.restrict name =
          ((Linter.ofRegistry registry').lint .start mode source filename).1.restrict name := by
  intro session ran
  have hapart : session.Apart := (Session.apart_start document).after hsteps
  have hdocument : session.document = document := Session.document_after _ steps
  refine ⟨fun name => ?_, fun rule severity => Session.register_of_contains,
    Session.run_of_isProcessed, hapart.nodup_used, ?_,
    fun registry registry' h h' name hname => Linter.restrict_lint_congr h h' hname⟩
  · rw [hapart.diagnostics, hdocument, Session.ran?_after]
  · rw [hapart.used, hdocument, Session.ran?_after]

/-- A repeated element without a key that uses a binding of a setup script. -/
def repeatedItem : Document :=
  .ofStream "li(v-for='x in xs')" (.bare "li(v-for='x in xs')")
    { bindings := [{ name := "xs", setup := true }] }
    (TokenStream.ofBlock (.bare "li(v-for='x in xs')"))

/-- A rule that runs before others, is registered again with another severity, and
    a rule that comes after the last run. -/
def lateSteps : List SessionStep :=
  [.register .requireKey .warning, .run,
    .registerAll ⟨[{ rule := .noteUsedBindings }, { rule := .requireKey }]⟩, .run,
    .register .validFor .error]

-- A bare template has no script.
attribute [local instance] ScriptParser.never

theorem rules_independent_lateSteps :
    let session := (Session.start repeatedItem).after lateSteps
    (∀ step ∈ lateSteps, ∀ entry ∈ step.rules, entry.1.BuiltIn) ∧
    session.diagnostics.filter (·.ruleName == Rule.requireKey.name) =
      (Session.check repeatedItem [(.requireKey, .warning)]).diagnostics ∧
    session.diagnostics.filter (·.ruleName == Rule.validFor.name) = [] ∧
    session.used = (Session.check repeatedItem [(.noteUsedBindings, .error)]).used ∧
    ((Linter.ofRegistry ⟨[{ rule := .requireKey }, { rule := .validFor }]⟩).lint .start .template
        "li(v-for='x in xs')" "a.pug").1.restrict Rule.requireKey.name =
      ((Linter.ofRegistry ⟨[{ rule := .validFor }, { rule := .requireKey }]⟩).lint .start .template
        "li(v-for='x in xs')" "a.pug").1.restrict Rule.requireKey.name := by
  have hsteps : ∀ step ∈ lateSteps, ∀ entry ∈ step.rules, entry.1.BuiltIn := by
    simp only [lateSteps, List.forall_mem_cons, SessionStep.rules, Registry.rules, List.map_cons,
      List.map_nil]
    exact ⟨⟨.requireKey, nofun⟩, nofun, ⟨.noteUsedBindings, .requireKey, nofun⟩, nofun,
      ⟨.validFor, nofun⟩, nofun⟩
  obtain ⟨hdiagnostics, -, -, -, hused, hlint⟩ := rules_independent repeatedItem lateSteps hsteps
  refine ⟨hsteps, (hdiagnostics _).trans ?_, (hdiagnostics _).trans ?_, hused.trans ?_, ?_⟩
  · rfl
  · rfl
  · rfl
  · refine hlint _ _ ?_ ?_ _ ?_ _ _ _
    · exact List.forall_mem_cons.2 ⟨.requireKey, List.forall_mem_cons.2 ⟨.validFor, nofun⟩⟩
    · exact List.forall_mem_cons.2 ⟨.validFor, List.forall_mem_cons.2 ⟨.requireKey, nofun⟩⟩
    · rfl

end PugLint
