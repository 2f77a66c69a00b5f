import PugLint.Script.Grammar.Statements

/-!
# Imports and exports in scripts

The rules for what stands at the top of a script. Names that are imported as
types alone are not bound.
-/

namespace PugLint.Script.Phrase

open Peg

/-- The attributes of an import. -/
def importAttributes : Phrase :=
  optSeq [sameLine, words ["with", "assert"], silent (symbol .objectLiteral)]

/-- Where something is imported from. -/
def importSource : Phrase := seq [word "from", string, importAttributes, endOfStatement]

/-- The name of something in another script. -/
def moduleName : Phrase := alt [name, string]

/-- A name that is imported, as a type alone or not. -/
def importSpecifier : Phrase :=
  let isEnd : Phrase := alt [punct ",", punct "\x7d"]
  alt
    [node .typeSpecifier (seq [typed, word "type", absent (alt [word "as", isEnd]), alt
       [seq [moduleName, word "as", bound], node .binding (lexeme scanName), string]]),
     -- `type as` imports the type `as`, and `type as as x` renames it.
     node .typeSpecifier (seq [typed, word "type", word "as", alt
       [ahead isEnd, seq [word "as", absent isEnd, bound]]]),
     node .specifier (seq [moduleName, word "as", bound]),
     node .specifier bound]

/-- Names that are imported. -/
def importClause : Phrase :=
  let namespaceName : Phrase := node .namespaceSpecifier (seq [punct "*", word "as", bound])
  let named : Phrase := braced (commaList importSpecifier)
  alt
    [seq [node .defaultSpecifier bound, optSeq [punct ",", alt [namespaceName, named]]],
     namespaceName,
     named]

/-- A name for something of a namespace or another script. -/
def importAlias : Phrase :=
  silent <| seq [typed, optSeq [word "type", ahead identifier], identifier, equals, alt
    [seq [word "require", parenthesized string],
     seq [identifier, many (seq [punct ".", name])]], endOfStatement]

/-- An import. -/
def importItem : Phrase :=
  seq [word "import", alt
    [node .plainImport (seq [string, importAttributes, endOfStatement]),
     node .otherDeclaration importAlias,
     node .typeImport (seq [typed, word "type", importClause, importSource]),
     node .ofImport (seq [importClause, importSource])]]

/-- The name of something in this script that can be exported. -/
def localName : Phrase :=
  seq [absent (words ["implements", "interface", "let", "package", "private", "protected",
    "public", "static", "yield"]), identifier]

/-- Names that are exported, given what stands for the name of something. -/
def exportClause (subject : Phrase) : Phrase :=
  let renamed : Phrase := optSeq [word "as", moduleName]
  let isPlain : Phrase := alt [word "as", punct ",", punct "\x7d"]
  braced (commaList (alt
    [seq [typed, word "type", absent isPlain, subject, renamed], seq [subject, renamed]]))

/-- What the default export is. -/
def exportDefault : Phrase :=
  alt
    [node .ofFunction (functionWith (opt bound) declaredTail),
     node .ofClass (seq [many (symbol .decorator), optSeq [typed, word "abstract", sameLine],
       classWith (classNameIfAny bound)]),
     seq [ahead (word "interface"), node .otherDeclaration (symbol .typeDeclaration)],
     seq [node .defaultValue (symbol .assignment), endOfStatement]]

/-- An export. -/
def exportItem : Phrase :=
  let named : Phrase :=
    node .exportNamed (alt
      [seq [exportClause moduleName, importSource], seq [exportClause localName, endOfStatement]])
  let everything : Phrase :=
    node .otherStatement (seq [punct "*", optSeq [word "as", moduleName], importSource])
  seq [word "export", alt
    [node .exportDefault (seq [word "default", exportDefault]),
     everything,
     named,
     seq [typed, word "type", alt [everything, named]],
     node .otherStatement (silent (seq [typed, equals, symbol .expression, endOfStatement])),
     node .otherStatement (seq [typed, word "as", word "namespace", identifier, endOfStatement]),
     node .exportNamed (seq [word "import", node .otherDeclaration importAlias]),
     node .exportNamed (symbol .declaration)]]

/-- A statement, import or export at the top of a script. -/
def moduleItem : Phrase :=
  seq [blanks, alt
    [symbol .importItem,
     seq [many (symbol .decorator), symbol .exportItem],
     symbol .declaration,
     node .otherStatement (silent (symbol .statement))]]

end PugLint.Script.Phrase
