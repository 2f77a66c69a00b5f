import PugLint.Cache
import PugLint.Registry
import PugLint.Session

/-!
# Linters

A linter checks templates and components with one registry of rules. It keeps
its last sessions, so that a text that comes up again need not be checked again;
token streams are kept apart from linters, because they depend on the text
alone. Which caches keep them does not matter, nor how scripts are read.

* `Linter.lintTemplate`: checks a bare template;
* `Linter.lintComponent`: checks the template of a component.
-/

namespace PugLint

/-- The result of checking a file. -/
structure LintResult where
  /-- The name of the file. -/
  filename : String
  /-- The diagnostics in the order of their starts. -/
  diagnostics : List Diagnostic
  /-- The bindings of setup scripts that the template uses. -/
  usedBindings : List String
  deriving DecidableEq, Repr, Inhabited

namespace LintResult

/-- A result with its diagnostics put in order; those with equal starts stay as
    they were. -/
def ofDiagnostics (filename : String) (diagnostics : List Diagnostic)
    (usedBindings : List String) : LintResult :=
  ⟨filename, diagnostics.mergeSort fun a b => a.start ≤ b.start, usedBindings⟩

/-- A result without diagnostics. -/
def empty (filename : String) : LintResult :=
  ofDiagnostics filename [] []

/-- The number of errors. -/
def errorCount (result : LintResult) : Nat :=
  countSeverity .error result.diagnostics

/-- The number of warnings. -/
def warningCount (result : LintResult) : Nat :=
  countSeverity .warning result.diagnostics

/-- Whether there are errors. -/
def hasErrors (result : LintResult) : Bool :=
  0 < result.errorCount

/-- Whether there are diagnostics. -/
def hasDiagnostics (result : LintResult) : Bool :=
  !result.diagnostics.isEmpty

end LintResult

/-! ### Streams -/

section Caching

variable [Caching]

/-- The token streams that are kept, by the text of the document and the byte
    where the template starts. -/
abbrev StreamCache := Caching.Cache (String × Nat) TokenStream

namespace StreamCache

/-- No kept streams. -/
def start : StreamCache := Caching.empty 128

/-- The stream of a template block, kept or new. -/
def stream (streams : StreamCache) (source : String) (block : TemplateBlock) :
    TokenStream × StreamCache :=
  match Caching.get? streams (source, block.offset) with
  | (some stream, streams) => (stream, streams)
  | (none, streams) =>
    let stream := TokenStream.ofBlock block
    (stream, Caching.put streams (source, block.offset) stream)

/-- The streams with room for another number of them. -/
def resize (streams : StreamCache) (capacity : Nat) : StreamCache :=
  Caching.resize streams capacity

/-- No streams of those that were kept. -/
def clear (streams : StreamCache) : StreamCache :=
  Caching.clear streams

end StreamCache

end Caching

/-- The document of a template block, with a given stream. -/
def Document.ofStream (source : String) (template : TemplateBlock) (script : ScriptInfo)
    (stream : TokenStream) : Document :=
  ⟨source, template, script, LineIndex.ofText source.toList, stream⟩

/-! ### Linters -/

/-- What a text is checked as. -/
inductive LintMode where
  /-- A bare template. -/
  | template
  /-- A component. -/
  | component
  deriving DecidableEq, Repr, Inhabited

/-- The word for a mode in the keys of sessions. -/
def LintMode.word : LintMode → String
  | template => "template"
  | component => "sfc"

/-- A registry and the sessions kept for it. -/
structure Linter [Caching] where
  /-- The rules. -/
  registry : Registry
  /-- The digest of the registry. -/
  fingerprint : UInt64
  /-- The sessions, by the text and a digest of registry and mode. -/
  sessions : Caching.Cache (String × UInt64) Session

namespace Linter

variable [Caching]

/-- A linter without sessions. -/
def ofRegistry (registry : Registry) : Linter :=
  ⟨registry, registry.fingerprint, Caching.empty 64⟩

/-- The linter with room for another number of sessions. -/
def withCapacity (linter : Linter) (capacity : Nat) : Linter :=
  { linter with sessions := Caching.resize linter.sessions capacity }

/-- The linter without its sessions. -/
def clear (linter : Linter) : Linter :=
  { linter with sessions := Caching.clear linter.sessions }

/-- The session of a text, kept or new. -/
def session (linter : Linter) (streams : StreamCache) (key : String × UInt64)
    (template : TemplateBlock) (script : ScriptInfo) : Session × Linter × StreamCache :=
  match Caching.get? linter.sessions key with
  | (some session, sessions) => (session, { linter with sessions }, streams)
  | (none, sessions) =>
    let (stream, streams) := streams.stream key.1 template
    (.start (.ofStream key.1 template script stream), { linter with sessions }, streams)

/-- Checks a template block of a text. -/
def lintBlock (linter : Linter) (streams : StreamCache) (mode : LintMode)
    (source filename : String) (template : TemplateBlock) (script : ScriptInfo) :
    LintResult × Linter × StreamCache :=
  let key := (source, Text.extendDigest linter.fingerprint mode.word)
  let (session, linter, streams) := linter.session streams key template script
  -- In a kept session all rules are registered and have run: nothing changes.
  let session := (session.registerAll linter.registry.rules).run
  (.ofDiagnostics filename session.diagnostics session.used,
    { linter with sessions := Caching.put linter.sessions key session }, streams)

/-- Checks a bare template. -/
def lintTemplate (linter : Linter) (streams : StreamCache) (source filename : String) :
    LintResult × Linter × StreamCache :=
  linter.lintBlock streams .template source filename (.bare source) {}

/-- The name under which unreadable components are reported. -/
def environmentRule : String := "sgraffito/environment"

/-- The diagnostic of a component whose blocks cannot be read. -/
def environmentDiagnostic (reason : String) : Diagnostic where
  ruleName := environmentRule
  severity := .error
  messageId := none
  message := "The component's block structure could not be read (" ++ reason ++
    "). Fix the block structure, or lint this file with a complete SFC parser."
  start := 0
  stop := 0
  location := ⟨1, 0, 1, 0⟩
  fix := none

/-- Whether a file is a component by its name. -/
def isComponentName (filename : String) : Bool :=
  Text.endsWith filename.toList ".vue".toList

variable [ScriptParser]

/-- Checks the template of a component, if it is written in Pug. -/
def lintComponent (linter : Linter) (streams : StreamCache) (source filename : String) :
    LintResult × Linter × StreamCache :=
  match Component.parse source with
  | .error error =>
    let diagnostics :=
      if isComponentName filename then [environmentDiagnostic error.message] else []
    (.ofDiagnostics filename diagnostics [], linter, streams)
  | .ok component =>
    match component.template.filter TemplateBlock.isPug with
    | some template =>
      linter.lintBlock streams .component source filename template
        (ScriptInfo.scan component.scripts)
    | none => (.empty filename, linter, streams)

/-- Checks a file: components by their name, everything else as a template. -/
def lintFile (linter : Linter) (streams : StreamCache) (filename source : String) :
    LintResult × Linter × StreamCache :=
  if isComponentName filename then linter.lintComponent streams source filename
  else linter.lintTemplate streams source filename

/-- Checks files, each a name and a text, one after the other. -/
def lintFiles (linter : Linter) (streams : StreamCache) :
    List (String × String) → List LintResult × Linter × StreamCache
  | [] => ([], linter, streams)
  | (filename, source) :: files =>
    let (result, linter, streams) := linter.lintFile streams filename source
    let (results, linter, streams) := linter.lintFiles streams files
    (result :: results, linter, streams)

end Linter

/-- The summary of the results of some files. -/
def Summary.ofResults (results : List LintResult) : Summary where
  errors := results.foldl (fun count result => count + result.errorCount) 0
  warnings := results.foldl (fun count result => count + result.warningCount) 0
  files := results.length

end PugLint
