import PugLint.Message
import PugLint.Rule

/-!
# Reports

How findings become diagnostics: the message of the rule with its slots filled,
the severity that the rule runs with, and the lines and columns of the range.

* `Reporter.diagnostic`: the diagnostic for a message of a rule;
* `Report`: diagnostics and used bindings in the order in which they came up.
-/

namespace PugLint

/-- The lines and columns of a range of a document. -/
def LineIndex.location (lines : LineIndex) (start stop : Nat) : Location :=
  let (line, column) := lines.position start
  let (stopLine, stopColumn) := lines.position stop
  ⟨line, column, stopLine, stopColumn⟩

/-- A diagnostic with the location of its range, unless it has one already. -/
def Diagnostic.located (diagnostic : Diagnostic) (lines : LineIndex) : Diagnostic :=
  if diagnostic.location == .unset then
    { diagnostic with location := lines.location diagnostic.start diagnostic.stop }
  else diagnostic

/-- On whose behalf something is reported. -/
structure Reporter where
  /-- The name of the rule. -/
  ruleName : String := ""
  /-- The messages of the rule by their ids. -/
  messages : List (String × String) := []
  /-- The severity that the rule runs with. -/
  severity : Severity := .error
  deriving DecidableEq, Repr, Inhabited

/-- A rule that runs with a severity. -/
def Reporter.ofRule (info : RuleInfo) (severity : Severity) : Reporter :=
  ⟨info.name, info.messages, severity⟩

/-- A diagnostic with a message of its own. -/
def Reporter.plain (reporter : Reporter) (message : String) (start stop : Nat) : Diagnostic :=
  ⟨reporter.ruleName, reporter.severity, none, message, start, stop, .unset, none⟩

/-- A diagnostic with a message of the rule; an id without a message is its own
    message. -/
def Reporter.diagnostic (reporter : Reporter) (messageId : String)
    (data : List (String × String)) (start stop : Nat) (fix : Option Fix) : Diagnostic :=
  let template := (reporter.messages.lookup messageId).getD messageId
  { reporter.plain (Message.interpolate template data) start stop with
    messageId := some messageId
    fix }

/-- The diagnostic for a finding that is a problem. -/
def Reporter.diagnostic? (reporter : Reporter) (lines : LineIndex) : Finding → Option Diagnostic
  | .problem messageId data start stop fix =>
    some ((reporter.diagnostic messageId data start stop fix).located lines)
  | .usesBinding _ => none

/-- The name that a finding says is used. -/
def Finding.usedName? : Finding → Option String
  | .usesBinding name => some name
  | .problem _ _ _ _ _ => none

/-- Names with some more behind them, none of them twice. -/
def addNames (names more : List String) : List String :=
  more.foldl (fun names name => if names.contains name then names else names ++ [name]) names

/-- What has been reported about a document. -/
structure Report where
  /-- The lines of the document. -/
  lines : LineIndex
  /-- The diagnostics in the order in which they were reported. -/
  diagnostics : List Diagnostic := []
  /-- The names that were noted as used, each once. -/
  used : List String := []

namespace Report

/-- One diagnostic more, with a location. -/
def add (report : Report) (diagnostic : Diagnostic) : Report :=
  { report with diagnostics := report.diagnostics ++ [diagnostic.located report.lines] }

/-- Notes a name as used. -/
def note (report : Report) (name : String) : Report :=
  { report with used := addNames report.used [name] }

/-- The number of errors. -/
def errorCount (report : Report) : Nat :=
  countSeverity .error report.diagnostics

/-- The number of warnings. -/
def warningCount (report : Report) : Nat :=
  countSeverity .warning report.diagnostics

/-- The summary of the diagnostics. -/
def summary (report : Report) : Summary :=
  report.diagnostics.foldl Summary.add {}

end Report

end PugLint
