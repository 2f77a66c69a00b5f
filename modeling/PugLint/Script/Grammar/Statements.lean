import PugLint.Script.Grammar.Expressions

/-!
# Statements in scripts

The rules for statements and declarations. Of a declaration it is found what it
binds; nothing is found of what is bound inside of a statement.
-/

namespace PugLint.Script.Phrase

open Peg

/-! ### Variables -/

/-- A constant, which has a value unless it is only declared. -/
def constant : Phrase :=
  seq [symbol .bindingTarget, symbol .typeSuffix, alt [initializer, guard Scope.ambient]]

/-- A variable. A pattern has a value. -/
def declarator : Phrase :=
  alt
    [seq [bound, optSeq [typed, punctAlone "!" "="], symbol .typeSuffix, opt initializer],
     seq [symbol .bindingPattern, symbol .typeSuffix, alt [initializer, guard Scope.ambient]]]

/-- The word in front of variables, if variables follow it. -/
def letWord : Phrase := seq [word "let", ahead (symbol .bindingTarget)]

/-- The words in front of variables that hold a resource, if variables follow
    them. -/
def usingWords : Phrase :=
  seq [optSeq [guard Scope.awaits, word "await", sameLine], word "using", sameLine,
    ahead identifier]

/-- A variable that holds a resource. -/
def resource : Phrase := seq [bound, symbol .typeSuffix, initializer]

/-- The declaration of variables, without its end. -/
def bindings : Phrase :=
  alt
    [seq [word "const", commaSeparated constant],
     seq [alt [word "var", letWord], commaSeparated declarator],
     seq [usingWords, commaSeparated resource]]

/-! ### Types -/

/-- A member of an enumeration. Its name is known. -/
def enumMember : Phrase :=
  seq [alt [name, string, bracketed (alt [string, symbol .template])], opt initializer]

/-- The body of a namespace. -/
def namespaceBody : Phrase :=
  seq [punct "\x7b", many (symbol .moduleItem), punct "\x7d"]

/-- The declaration of a namespace. -/
def namespaceDeclaration : Phrase :=
  alt
    [seq [words ["namespace", "module"], sameLine, identifier, many (seq [punct ".", name]),
       namespaceBody],
     seq [word "module", sameLine, string, alt [namespaceBody, endOfStatement]],
     seq [guard Scope.ambient, word "global", namespaceBody]]

/-- The declaration of something that binds no value. -/
def typeDeclaration : Phrase :=
  silent <| seq [typed, alt
    [seq [word "interface", sameLine, identifier, opt (symbol .typeParameters),
       optSeq [word "extends", commaSeparated typeReference], symbol .objectType],
     seq [word "type", sameLine, identifier, opt (symbol .typeParameters), equals, symbol .type,
       endOfStatement],
     seq [opt (word "const"), word "enum", identifier, braced (commaList enumMember)],
     namespaceDeclaration]]

/-- What is only declared, to be found elsewhere. -/
def ambientDeclaration : Phrase :=
  seq [typed, word "declare", sameLine,
    within (fun scope => { scope with ambient := true }) (symbol .declaration)]

/-- A declaration of variables, functions, classes or types. -/
def declaration : Phrase :=
  alt
    [node .otherDeclaration (symbol .typeDeclaration),
     node .ofVariables (seq [symbol .bindings, endOfStatement]),
     node .ofFunction (symbol .functionDeclaration),
     node .ofClass (seq [many (symbol .decorator), optSeq [typed, word "abstract", sameLine],
       symbol .classDeclaration]),
     ambientDeclaration]

/-! ### Statements -/

/-- A block. -/
def block : Phrase := seq [punct "\x7b", many (symbol .statementItem), punct "\x7d"]

/-- A statement or declaration inside of something. -/
def statementItem : Phrase :=
  seq [blanks, silent (alt [symbol .declaration, symbol .statement])]

/-- What is bound in the parentheses of a `for` that runs through something. -/
def iterationVariable : Phrase :=
  alt
    [seq [alt [word "const", word "var", letWord], symbol .bindingTarget, symbol .typeSuffix],
     seq [usingWords, bound, symbol .typeSuffix]]

/-- What stands in the parentheses of a `for` that runs through something. -/
def iterationHead : Phrase :=
  let assigned : Phrase :=
    alt [symbol .assignmentPattern, checked isAssignable (symbol .leftHandSide)]
  let iterated (subject : Phrase) : Phrase := seq [subject, word "of", symbol .assignment]
  alt [iterated iterationVariable, iterated assigned]

/-- What stands in the parentheses of a `for`. -/
def forHead : Phrase :=
  let noIn (scope : Scope) : Scope := { scope with hasIn := false }
  let assigned : Phrase :=
    alt [symbol .assignmentPattern, checked isAssignable (within noIn (symbol .leftHandSide))]
  alt
    [iterationHead,
     seq [alt [iterationVariable, assigned], word "in", symbol .expression],
     -- In the first part an `in` would belong to a `for` that runs through keys.
     seq [opt (within noIn (alt [symbol .bindings, symbol .expression])), punct ";",
       opt (symbol .expression), punct ";", opt (symbol .expression)]]

/-- A case of a `switch`. -/
def switchCase : Phrase :=
  seq [alt [seq [word "case", symbol .expression], word "default"], punct ":",
    many (symbol .statementItem)]

/-- What follows the block of a `try`. -/
def tryTail : Phrase :=
  let caught : Phrase := seq [word "catch",
    opt (parenthesized (seq [symbol .bindingTarget, symbol .typeSuffix])), symbol .block]
  let finished : Phrase := seq [word "finally", symbol .block]
  alt [seq [caught, opt finished], finished]

/-- A statement that is an expression. -/
def expressionStatement : Phrase :=
  let isOther : Phrase := alt
    [punct "\x7b", words ["function", "class"], seq [word "async", sameLine, word "function"],
     seq [word "let", punct "["]]
  seq [absent isOther, symbol .expression, endOfStatement]

/-- A statement. -/
def statement : Phrase :=
  let condition : Phrase := parenthesized (symbol .expression)
  let body : Phrase := symbol .statement
  alt
    [symbol .block,
     punct ";",
     seq [word "if", condition, body, optSeq [word "else", body]],
     seq [word "for", alt
       [seq [guard Scope.isAsync, word "await", parenthesized iterationHead],
        parenthesized forHead], body],
     seq [word "while", condition, body],
     seq [word "do", body, word "while", condition, opt (punct ";")],
     seq [words ["break", "continue"], optSeq [sameLine, identifier], endOfStatement],
     seq [guard Scope.inFunction, word "return", optSeq [sameLine, symbol .expression],
       endOfStatement],
     seq [word "throw", sameLine, symbol .expression, endOfStatement],
     seq [word "try", symbol .block, tryTail],
     seq [word "switch", condition, punct "\x7b", many switchCase, punct "\x7d"],
     seq [word "debugger", endOfStatement],
     seq [word "with", condition, body],
     seq [word "var", ahead (symbol .bindingTarget), commaSeparated declarator, endOfStatement],
     -- A label.
     seq [identifier, punctAlone ":" ":", alt [body, symbol .functionDeclaration]],
     expressionStatement,
     symbol .functionDeclaration]

end PugLint.Script.Phrase
