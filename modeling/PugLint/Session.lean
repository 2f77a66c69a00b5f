import PugLint.Report

/-!
# Sessions

A session checks one document. Rules can be registered at any time, and a run
asks those that have not run before. All of them see the same tokens in the same
pass: at every place, one rule after the other in the order of registration.

* `Document.views`: the places of a document in their order;
* `Session.run`: the session after a pass of the rules that wait.
-/

namespace PugLint

/-- The views of the tokens from the number `index` on, of which there are
    `count`. -/
def Document.viewsFrom (document : Document) (trackers : Trackers) (index : Nat) :
    Nat → List View
  | 0 => []
  | count + 1 =>
    let trackers := trackers.update document.stream.tokens document.stream.tree index
    ⟨document, trackers, index⟩ :: document.viewsFrom trackers (index + 1) count

/-- The views of all tokens. -/
def Document.views (document : Document) : List View :=
  document.viewsFrom .start 0 document.stream.tokens.size

/-- The view of the template block as a whole. -/
def Document.blockView (document : Document) : View :=
  ⟨document, .start, 0⟩

/-- What rules are asked at a token: first about the element that it starts,
    then about the token. -/
def View.events (view : View) : List Event :=
  (if (view.tree.elementAt? view.index).isSome then [.element] else []) ++
    (Event.ofKind? view.token.kind).toList

/-- What a rule finds at a token. -/
def Rule.findingsAt (rule : Rule) (view : View) : List Finding :=
  view.events.flatMap fun event => rule.check event view

/-- A rule in a session. -/
structure Registration where
  /-- The rule. -/
  rule : Rule
  /-- The severity it runs with. -/
  severity : Severity
  /-- Whether it has run. -/
  isDone : Bool := false

/-- Who a registered rule reports as. -/
def Registration.reporter (registration : Registration) : Reporter :=
  .ofRule registration.rule.info registration.severity

/-- A document and the rules that check it. -/
structure Session where
  /-- The document. -/
  document : Document
  /-- The rules in the order of registration. -/
  registrations : List Registration := []
  /-- The diagnostics of all runs. -/
  diagnostics : List Diagnostic := []
  /-- The bindings that the template uses, in the order of their first use. -/
  used : List String := []

namespace Session

/-- A session without rules. -/
def start (document : Document) : Session := { document }

/-- Whether a rule of a given name is registered. -/
def contains (session : Session) (name : String) : Bool :=
  session.registrations.any (·.rule.name == name)

/-- Registers a rule; one whose name is registered is left out. -/
def register (session : Session) (rule : Rule) (severity : Severity) : Session :=
  if session.contains rule.name then session
  else { session with registrations := session.registrations ++ [{ rule, severity }] }

/-- Registers rules with their severities, one after the other. -/
def registerAll (session : Session) (rules : List (Rule × Severity)) : Session :=
  rules.foldl (fun session (rule, severity) => session.register rule severity) session

/-- Whether all registered rules have run. -/
def isProcessed (session : Session) : Bool :=
  session.registrations.all Registration.isDone

/-- The rules that have not run. -/
def pending (session : Session) : List Registration :=
  session.registrations.filter (!·.isDone)

/-- What some rules find in a document, and on whose behalf. -/
def findings (document : Document) (registrations : List Registration) :
    List (Reporter × Finding) :=
  let found (registration : Registration) (findings : List Finding) :=
    findings.map (registration.reporter, ·)
  (registrations.flatMap fun registration =>
    found registration (registration.rule.check .block document.blockView)) ++
  document.views.flatMap fun view =>
    registrations.flatMap fun registration =>
      found registration (registration.rule.findingsAt view)

/-- The session after a pass of the rules that have not run. -/
def run (session : Session) : Session :=
  let found := findings session.document session.pending
  { session with
    registrations := session.registrations.map ({ · with isDone := true })
    diagnostics := session.diagnostics ++ found.filterMap fun (reporter, finding) =>
      reporter.diagnostic? session.document.lines finding
    used := addNames session.used (found.filterMap fun (_, finding) => finding.usedName?) }

end Session

end PugLint
