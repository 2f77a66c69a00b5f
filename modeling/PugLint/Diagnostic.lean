import PugLint.Edit

/-!
# Diagnostics

What is reported about a document: a rule, a severity, a message and a range of
bytes, with the lines and columns of that range for the reader.
-/

namespace PugLint

/-- How serious a problem is. -/
inductive Severity where
  /-- A problem that makes the document fail. -/
  | error
  /-- A problem to look at. -/
  | warning
  deriving DecidableEq, Repr, Inhabited

/-- The word for a severity in reports. -/
def Severity.word : Severity → String
  | error => "error"
  | warning => "warning"

/-- The lines and columns of a range; lines count from one, columns from zero. -/
structure Location where
  /-- The line where the range starts. -/
  line : Nat
  /-- The column where the range starts. -/
  column : Nat
  /-- The line where the range ends. -/
  stopLine : Nat
  /-- The column where the range ends. -/
  stopColumn : Nat
  deriving DecidableEq, Repr, Inhabited

/-- The location of a diagnostic that has not been given one. -/
def Location.unset : Location := ⟨0, 0, 0, 0⟩

/-- A reported problem. -/
structure Diagnostic where
  /-- The rule that reports it. -/
  ruleName : String
  /-- How serious it is. -/
  severity : Severity
  /-- The message of the rule that was used. -/
  messageId : Option String
  /-- The message. -/
  message : String
  /-- The first byte of the range. -/
  start : Nat
  /-- The byte behind the range. -/
  stop : Nat
  /-- The lines and columns of the range. -/
  location : Location
  /-- How to mend the problem. -/
  fix : Option Fix
  deriving DecidableEq, Repr, Inhabited

/-- How many diagnostics have a severity. -/
def countSeverity (severity : Severity) (diagnostics : List Diagnostic) : Nat :=
  diagnostics.countP (·.severity == severity)

/-- The numbers of errors, warnings and files of a run. -/
structure Summary where
  /-- The number of errors. -/
  errors : Nat := 0
  /-- The number of warnings. -/
  warnings : Nat := 0
  /-- The number of files. -/
  files : Nat := 0
  deriving DecidableEq, Repr, Inhabited

/-- A summary that counts one more diagnostic. -/
def Summary.add (summary : Summary) (diagnostic : Diagnostic) : Summary :=
  match diagnostic.severity with
  | .error => { summary with errors := summary.errors + 1 }
  | .warning => { summary with warnings := summary.warnings + 1 }

/-- Whether there are errors. -/
def Summary.hasErrors (summary : Summary) : Bool :=
  0 < summary.errors

end PugLint
