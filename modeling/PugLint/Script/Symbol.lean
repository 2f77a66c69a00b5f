import PugLint.Script.Lexeme
import PugLint.Script.Peg

/-!
# Symbols of the script grammar

The symbols, labels and scopes of the grammar of scripts, and the expressions
for lexemes from which its rules are made.
-/

namespace PugLint.Script

/-- What a piece of a script stands in. -/
structure Scope where
  /-- Whether types may be written. -/
  typed : Bool
  /-- Whether markup may be written in expressions. -/
  markup : Bool
  /-- Whether it is inside of a function. -/
  inFunction : Bool := false
  /-- Whether `await` is an operator. -/
  awaits : Bool := true
  /-- Whether the function around it is asynchronous. -/
  isAsync : Bool := false
  /-- Whether the function around it is a generator. -/
  yields : Bool := false
  /-- Whether `in` is an operator. -/
  hasIn : Bool := true
  /-- Whether an arrow function may say what it returns. -/
  arrowTypes : Bool := true
  /-- Whether only declarations are given, without what they declare. -/
  ambient : Bool := false
  deriving DecidableEq, Repr, Inhabited

/-- The scope of the body of a function. -/
def Scope.function (isAsync isGenerator : Bool) (scope : Scope) : Scope :=
  { scope with
    inFunction := true, awaits := isAsync, isAsync, yields := isGenerator
    hasIn := true, arrowTypes := true, ambient := false }

/-- The scope inside of brackets. -/
def Scope.bracketed (scope : Scope) : Scope :=
  { scope with hasIn := true, arrowTypes := true }

/-- What is found in a script. -/
inductive Label where
  /-- A name that is bound. -/
  | binding
  /-- A pattern for the properties of an object. -/
  | objectPattern
  /-- A property in a pattern, with its key. -/
  | keyed
  /-- A property in a pattern under its own name. -/
  | shorthand
  /-- A pattern for the items of an array. -/
  | arrayPattern
  /-- An item of an array that is left out. -/
  | hole
  /-- What is bound in a pattern. -/
  | element
  /-- The default value of what is bound. -/
  | fallback
  /-- What takes the rest in a pattern. -/
  | rest
  /-- The declaration of variables. -/
  | ofVariables
  /-- The declaration of a function. -/
  | ofFunction
  /-- The declaration of a class. -/
  | ofClass
  /-- A declaration that binds no value. -/
  | otherDeclaration
  /-- An import. -/
  | ofImport
  /-- An import of types alone. -/
  | typeImport
  /-- An import that only runs the other script. -/
  | plainImport
  /-- A name for something that is imported. -/
  | specifier
  /-- A name for a type that is imported. -/
  | typeSpecifier
  /-- A name for the default export of another script. -/
  | defaultSpecifier
  /-- A name for all that another script exports. -/
  | namespaceSpecifier
  /-- An export of names. -/
  | exportNamed
  /-- The default export. -/
  | exportDefault
  /-- The value of the default export. -/
  | defaultValue
  /-- Any other statement. -/
  | otherStatement
  /-- An object literal. -/
  | object
  /-- A property of an object literal. -/
  | property
  /-- The properties of another object in an object literal. -/
  | spread
  /-- The name of a property. -/
  | nameKey
  /-- The name of a property, given as a string. -/
  | stringKey
  /-- The value of a property. -/
  | value
  /-- A call. -/
  | call
  /-- An argument of a call. -/
  | argument
  /-- A name that is used. -/
  | reference
  /-- The member of an object. -/
  | member
  /-- An expression in parentheses. -/
  | parenthesized
  /-- Any other operand. -/
  | operand
  /-- What an operand is said to be. -/
  | asserted
  /-- An operator that makes a new value. -/
  | operated
  /-- An operator between two operands. -/
  | operator
  /-- An assignment. -/
  | assigned
  /-- A change of an operand. -/
  | updated
  /-- The name in a tag of markup. -/
  | tagName
  deriving DecidableEq, Repr, Inhabited

/-- The symbols of the grammar. -/
inductive Symbol where
  /-- A type. -/
  | type
  /-- A type that is no conditional one. -/
  | plainType
  /-- A function type. -/
  | functionType
  /-- Types joined by `&`. -/
  | intersectionType
  /-- A type behind type operators. -/
  | operatorType
  /-- A type that is no combination of others. -/
  | primaryType
  /-- The types between angle brackets. -/
  | typeArguments
  /-- The declaration of type parameters. -/
  | typeParameters
  /-- The type that a function returns. -/
  | returnType
  /-- The members of an object type, between braces. -/
  | objectType
  /-- A member of an object type. -/
  | typeMember
  /-- The type behind something, if it is written. -/
  | typeSuffix
  /-- The type that a function returns, if it is written. -/
  | returnSuffix
  /-- What is bound: a name or a pattern. -/
  | bindingTarget
  /-- A pattern, between brackets or braces. -/
  | bindingPattern
  /-- The parameters of a function, between parentheses. -/
  | parameters
  /-- One or more parameters. -/
  | parameterList
  /-- The body of a function. -/
  | functionBody
  /-- A function. -/
  | functionExpression
  /-- What follows the name of a class. -/
  | classTail
  /-- An element of a class. -/
  | classElement
  /-- A decorator. -/
  | decorator
  /-- The name of a property. -/
  | propertyName
  /-- An expression, with commas. -/
  | expression
  /-- An expression without commas. -/
  | assignment
  /-- An arrow function. -/
  | arrow
  /-- An expression with a choice. -/
  | conditional
  /-- Operands with operators between them. -/
  | binary
  /-- An operand with operators in front of it. -/
  | unary
  /-- An operand with what is done to it behind it. -/
  | leftHandSide
  /-- The creation of an object. -/
  | creation
  /-- A single operand. -/
  | primary
  /-- What is done to an operand. -/
  | suffix
  /-- The arguments of a call. -/
  | arguments
  /-- An object literal. -/
  | objectLiteral
  /-- A property of an object literal. -/
  | objectProperty
  /-- An array literal. -/
  | arrayLiteral
  /-- A template. -/
  | template
  /-- What an assignment can take apart a value into. -/
  | assignmentPattern
  /-- A part of such a pattern. -/
  | assignmentTarget
  /-- Markup in an expression. -/
  | markup
  /-- What stands between tags. -/
  | markupChild
  /-- An attribute of a tag. -/
  | markupAttribute
  /-- A statement or declaration. -/
  | statementItem
  /-- A statement. -/
  | statement
  /-- A block. -/
  | block
  /-- The declaration of variables, without its end. -/
  | bindings
  /-- A declaration of variables, functions or classes. -/
  | declaration
  /-- The declaration of a function. -/
  | functionDeclaration
  /-- The declaration of a class. -/
  | classDeclaration
  /-- The declaration of a type or of something else that binds no value. -/
  | typeDeclaration
  /-- A statement, import or export at the top of a script. -/
  | moduleItem
  /-- An import. -/
  | importItem
  /-- An export. -/
  | exportItem
  deriving DecidableEq, Repr, Inhabited

/-- An expression of the grammar. -/
abbrev Phrase := Peg Symbol Label Scope

namespace Phrase

open Peg

/-- A word. -/
def word (text : String) : Phrase := token (scanWord text.toList)

/-- One of some words. -/
def words (texts : List String) : Phrase := alt (texts.map word)

/-- A punctuator. -/
def punct (text : String) : Phrase := token (scanPunctuator text.toList)

/-- A punctuator that is not followed by some characters. -/
def punctAlone (text followers : String) : Phrase :=
  token (scanPunctuatorAlone text.toList followers.toList)

/-- The sign of an initial value. -/
def equals : Phrase := punctAlone "=" "=>"

/-- A text without blanks in front of it. -/
def exactly (text : String) : Phrase := token (dropText text.toList)

/-- A name that is not reserved. -/
def identifier : Phrase := silent (lexeme scanIdentifier)

/-- A name, reserved or not. -/
def name : Phrase := silent (lexeme scanName)

/-- A private name. -/
def privateName : Phrase := silent (lexeme scanPrivateName)

/-- A string. -/
def string : Phrase := silent (lexeme scanString)

/-- A number. -/
def number : Phrase := token scanNumber

/-- A name that is bound. -/
def bound : Phrase := node .binding (lexeme scanIdentifier)

/-- No end of a line. -/
def sameLine : Phrase := token fun text => if startsWithNewLine text then none else some text

/-- The end of a line. -/
def newLine : Phrase := token fun text => if startsWithNewLine text then some text else none

/-- Blanks and comments. -/
def blanks : Phrase := token fun text => some (skipBlanks text)

/-- The end of the script. -/
def endOfText : Phrase := token fun text => if (skipBlanks text).isEmpty then some [] else none

/-- The end of a statement: a semicolon, or a place where it can be left out. -/
def endOfStatement : Phrase := alt [punct ";", ahead (punct "\x7d"), newLine, endOfText]

/-- Where types may be written. -/
def typed : Phrase := guard Scope.typed

/-- One or more of an expression, with commas between them. -/
def commaSeparated (item : Phrase) : Phrase := seq [item, many (seq [punct ",", item])]

/-- Any number of an expression, with commas between them and perhaps behind
    them. -/
def commaList (item : Phrase) : Phrase := optSeq [commaSeparated item, opt (punct ",")]

/-- An expression between two punctuators. -/
def between (opening closing : String) (body : Phrase) : Phrase :=
  seq [punct opening, within Scope.bracketed body, punct closing]

/-- An expression between parentheses. -/
def parenthesized (body : Phrase) : Phrase := between "(" ")" body

/-- An expression between brackets. -/
def bracketed (body : Phrase) : Phrase := between "[" "]" body

/-- An expression between braces. -/
def braced (body : Phrase) : Phrase := between "\x7b" "\x7d" body

/-- The initial value of something. -/
def initializer : Phrase := seq [equals, silent (symbol .assignment)]

end Phrase

end PugLint.Script
