import PugLint.Script.Grammar.Markup
import PugLint.Script.Grammar.Modules
import PugLint.Script.Syntax

/-!
# The grammar of scripts

The rule of every symbol, and the reading of a whole script. A script is
JavaScript with types, unless its language says otherwise.

* `trees?`: what is found in a script, or nothing if it cannot be read.
-/

namespace PugLint.Script

/-- The rule of a symbol. -/
def grammar : Symbol → Phrase
  | .type => Phrase.type
  | .plainType => Phrase.plainType
  | .functionType => Phrase.functionType
  | .intersectionType => Phrase.intersectionType
  | .operatorType => Phrase.operatorType
  | .primaryType => Phrase.primaryType
  | .typeArguments => Phrase.typeArguments
  | .typeParameters => Phrase.typeParameters
  | .returnType => Phrase.returnType
  | .objectType => Phrase.objectType
  | .typeMember => Phrase.typeMember
  | .typeSuffix => Phrase.typeSuffix
  | .returnSuffix => Phrase.returnSuffix
  | .bindingTarget => Phrase.bindingTarget
  | .bindingPattern => Phrase.bindingPattern
  | .parameters => Phrase.parameters
  | .parameterList => Phrase.parameterList
  | .functionBody => Phrase.functionBody
  | .functionExpression => Phrase.functionExpression
  | .classTail => Phrase.classTail
  | .classElement => Phrase.classElement
  | .decorator => Phrase.decorator
  | .propertyName => Phrase.propertyName
  | .expression => Phrase.expression
  | .assignment => Phrase.assignment
  | .arrow => Phrase.arrow
  | .conditional => Phrase.conditional
  | .binary => Phrase.binary
  | .unary => Phrase.unary
  | .leftHandSide => Phrase.leftHandSide
  | .creation => Phrase.creation
  | .primary => Phrase.primary
  | .suffix => Phrase.suffix
  | .arguments => Phrase.arguments
  | .objectLiteral => Phrase.objectLiteral
  | .objectProperty => Phrase.objectProperty
  | .arrayLiteral => Phrase.arrayLiteral
  | .template => Phrase.template
  | .assignmentPattern => Phrase.assignmentPattern
  | .assignmentTarget => Phrase.assignmentTarget
  | .markup => Phrase.markup
  | .markupChild => Phrase.markupChild
  | .markupAttribute => Phrase.markupAttribute
  | .statementItem => Phrase.statementItem
  | .statement => Phrase.statement
  | .block => Phrase.block
  | .bindings => Phrase.bindings
  | .declaration => Phrase.declaration
  | .functionDeclaration => Phrase.functionDeclaration
  | .classDeclaration => Phrase.classDeclaration
  | .typeDeclaration => Phrase.typeDeclaration
  | .moduleItem => Phrase.moduleItem
  | .importItem => Phrase.importItem
  | .exportItem => Phrase.exportItem

/-- The scope at the top of a script. -/
def Language.scope : Language → Scope
  | typed => { typed := true, markup := false }
  | typedMarkup => { typed := true, markup := true }
  | markup => { typed := false, markup := true }

/-- A script: its items up to its end. -/
def program : Phrase :=
  .seq
    [.opt (.token fun text => (dropText "#!".toList text).map (·.dropWhile (!isLineEnd ·))),
     .many (.symbol .moduleItem), Phrase.endOfText]

/-- What is found in a script, or nothing if it cannot be read. -/
def trees? (language : Language) (text : String) : Option (List (Tree Label)) :=
  let chars := text.toList
  (program.run grammar (1000 * (chars.length + 10)) language.scope chars).map Prod.fst

end PugLint.Script
