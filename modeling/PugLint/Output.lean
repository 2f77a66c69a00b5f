import PugLint.Linter

/-!
# Output

The forms in which results are given out: one line of text a diagnostic, a JSON
document, and a line that sums them up. Lines and columns count from one here.
-/

namespace PugLint

/-- The line for a diagnostic. -/
def Diagnostic.line (diagnostic : Diagnostic) (filename : String) : String :=
  let place := ":".intercalate
    [filename, toString diagnostic.location.line, toString (diagnostic.location.column + 1)]
  "  ".intercalate [place, diagnostic.severity.word, diagnostic.message, diagnostic.ruleName]

/-- The lines for all diagnostics of some results. -/
def textOutput (results : List LintResult) : String :=
  "\n".intercalate <| results.flatMap fun result =>
    result.diagnostics.map (·.line result.filename)

/-- A fix as a value. -/
def Fix.toJson (fix : Fix) : Json.Value :=
  .object
    [("message", .string fix.title),
     ("edits", .array <| fix.edits.map fun edit =>
       .object
        [("start", .ofNat edit.start), ("end", .ofNat edit.stop),
         ("newText", .string edit.newText)])]

/-- The number for a severity. -/
def Severity.code : Severity → Nat
  | error => 2
  | warning => 1

/-- A diagnostic as a value. -/
def Diagnostic.toJson (diagnostic : Diagnostic) : Json.Value :=
  let location := diagnostic.location
  .object <|
    [("ruleId", .string diagnostic.ruleName),
     ("severity", .ofNat diagnostic.severity.code),
     ("message", .string diagnostic.message)] ++
    (diagnostic.messageId.toList.map fun id => ("messageId", .string id)) ++
    [("line", .ofNat location.line),
     ("column", .ofNat (location.column + 1)),
     ("endLine", .ofNat location.stopLine),
     ("endColumn", .ofNat (location.stopColumn + 1))] ++
    diagnostic.fix.toList.map fun fix => ("fix", fix.toJson)

/-- A result as a value. -/
def LintResult.toJson (result : LintResult) : Json.Value :=
  .object
    [("file", .string result.filename),
     ("messages", .array (result.diagnostics.map Diagnostic.toJson)),
     ("errorCount", .ofNat result.errorCount),
     ("warningCount", .ofNat result.warningCount),
     ("usedScriptBindings", .ofStrings result.usedBindings)]

/-- The document of some results. -/
def jsonOutput (results : List LintResult) : String :=
  Json.pretty "" (.array (results.map LintResult.toJson))

/-- A number and a noun, in the plural unless the number is one. -/
def counted (n : Nat) (noun : String) : String :=
  toString n ++ " " ++ noun ++ if n == 1 then "" else "s"

/-- The line that sums up a run. -/
def Summary.line (summary : Summary) : String :=
  let part (n : Nat) (noun : String) : List String := if n == 0 then [] else [counted n noun]
  let parts := part summary.errors "error" ++ part summary.warnings "warning"
  if parts.isEmpty then "No problems found in " ++ toString summary.files ++ " file(s)"
  else ", ".intercalate parts ++ " in " ++ counted summary.files "file"

end PugLint
