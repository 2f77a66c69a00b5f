import PugLint.Script.Grammar.Functions

/-!
# Expressions in scripts

The rules for expressions. What is found in an expression tells what it is as a
whole: the operands and what is done to them, one after the other. This is
enough to see whether something can be assigned to it, and whether it is an
object literal or a call with one.
-/

namespace PugLint.Script.Phrase

open Peg

/-! ### Tests -/

/-- Whether a tree has a given label. -/
def hasLabel (label : Label) : Tree Label → Bool
  | .node found _ => found == label
  | .leaf _ => false

/-- Whether what was found can be part of what is assigned to. -/
def isTargetPart (tree : Tree Label) : Bool :=
  [Label.reference, .member, .parenthesized, .call, .operand, .object, .asserted].any
    (hasLabel · tree)

mutual

/-- Whether something can be assigned to what ends in a tree. -/
def isTarget : Tree Label → Bool
  | .node .reference _ => true
  | .node .member _ => true
  | .node .asserted _ => true
  | .node .parenthesized found => isAssignable found
  | _ => false

/-- Whether something can be assigned to what was found. -/
def isAssignable : List (Tree Label) → Bool
  | [] => false
  | [tree] => isTarget tree
  | tree :: others => isTargetPart tree && isAssignable others

end

/-- Whether what an operator changes can be assigned to. -/
def isValidChange (label : Label) (found : List (Tree Label)) : Bool :=
  let before := found.takeWhile (!hasLabel label ·)
  before.length == found.length || isAssignable before

/-- The texts of the operators that were found. -/
def operatorTexts (found : List (Tree Label)) : List (List Char) :=
  found.filterMap fun tree =>
    match tree with
    | .node .operator [.leaf text] => some text
    | _ => none

/-- Whether the operators that were found can stand next to each other: `??` needs
    parentheses next to `&&` and `||`. -/
def areCompatible (found : List (Tree Label)) : Bool :=
  let texts := operatorTexts found
  !texts.contains "??".toList || !(texts.contains "&&".toList || texts.contains "||".toList)

/-! ### Assignments and choices -/

/-- An expression, with commas. -/
def expression : Phrase :=
  seq [symbol .assignment, many (seq [punct ",", mark .operated, silent (symbol .assignment)])]

/-- The body of an arrow function. -/
def arrowBody (isAsync : Bool) : Phrase :=
  let scope (scope : Scope) : Scope :=
    { scope with
      inFunction := true, awaits := isAsync, isAsync, yields := false, arrowTypes := true }
  alt
    [seq [ahead (punct "\x7b"), within (Scope.function isAsync false) (symbol .functionBody)],
     within scope (seq [absent (punct "\x7b"), silent (symbol .assignment)])]

/-- The type parameters of an arrow function. Where markup may be written, they
    have to be told apart from a tag. -/
def arrowTypeParameters : Phrase :=
  let told : Phrase :=
    alt [guard (!·.markup), ahead (seq [punct "<", opt (word "const"), identifier,
      alt [punct ",", word "extends"]])]
  optSeq [typed, told, symbol .typeParameters]

/-- What an arrow function says that it returns. -/
def arrowReturn : Phrase :=
  optSeq [typed, guard Scope.arrowTypes, punct ":", symbol .returnType]

/-- An arrow function from its parameters on. -/
def arrowFrom (isAsync : Bool) : Phrase :=
  seq
    [alt
      [seq [identifier, sameLine, punct "=>"],
       seq [arrowTypeParameters,
         within (fun scope => { scope with awaits := isAsync || scope.awaits })
           (symbol .parameters),
         arrowReturn, sameLine, punct "=>"]],
     arrowBody isAsync]

/-- An arrow function. -/
def arrow : Phrase :=
  silent (alt [seq [word "async", sameLine, arrowFrom true], arrowFrom false])

/-- A value that a generator yields. -/
def yielded : Phrase :=
  seq [guard Scope.yields, word "yield",
    optSeq [sameLine, opt (punct "*"), silent (symbol .assignment)]]

/-- An expression without commas. -/
def assignment : Phrase :=
  alt
    [seq [symbol .arrow, mark .operated],
     seq [yielded, mark .operated],
     -- Only the sign behind it tells a pattern from an object or array literal.
     seq [ahead (alt [punct "\x7b", punct "["]), silent (symbol .assignmentPattern), equals,
       silent (symbol .assignment), mark .operated],
     checked (isValidChange .assigned) (seq
       [symbol .conditional,
        optSeq [node .assigned (lexeme (scanOperator assignmentOperators)),
          silent (symbol .assignment)]])]

/-- A part of a pattern that is assigned to. -/
def assignmentTarget : Phrase :=
  alt
    [symbol .assignmentPattern,
     seq [alt [word "this", word "super", identifier],
       many (alt
        [seq [punctAlone "." ".", alt [name, privateName]],
         bracketed (symbol .expression),
         seq [typed, sameLine, punctAlone "!" "="]])]]

/-- A pattern that is assigned to. -/
def assignmentPattern : Phrase :=
  let target : Phrase := seq [symbol .assignmentTarget, opt initializer]
  let property : Phrase := alt
    [seq [symbol .propertyName, punct ":", target],
     seq [identifier, opt initializer]]
  let rest : Phrase := seq [punct "...", symbol .assignmentTarget]
  alt [objectPattern property rest, arrayPattern target rest]

/-- An expression with a choice. Between `?` and `:`, an arrow function that says
    what it returns is tried first. -/
def conditional : Phrase :=
  let choice (change : Scope → Scope) : Phrase :=
    seq [within change (symbol .assignment), punct ":", symbol .assignment]
  seq [symbol .binary,
    optSeq [token scanQuestion, mark .operated, silent (alt
      [choice fun scope => { scope with hasIn := true },
       choice fun scope => { scope with hasIn := true, arrowTypes := false }])]]

/-! ### Operators -/

/-- What an expression is said to be. -/
def asserted : Phrase :=
  seq [typed, sameLine, words ["as", "satisfies"], silent (alt [word "const", symbol .type]),
    mark .asserted]

/-- An operator between two operands. -/
def binaryOperator : Phrase :=
  alt
    [node .operator (lexeme (scanOperator binaryOperators)),
     seq [alt [word "instanceof", seq [guard Scope.hasIn, word "in"]], mark .operated]]

/-- Operands with operators between them. -/
def binary : Phrase :=
  checked areCompatible (seq
    [symbol .unary, many (alt [seq [binaryOperator, silent (symbol .unary)], asserted])])

/-- An operand with operators in front of it or behind it. What has an operator
    in front of it can be raised to a power only in parentheses. -/
def unary : Phrase :=
  let update : Phrase := lexeme (scanOperator updateOperators)
  let operand : Phrase := seq [silent (symbol .unary), absent (punct "**"), mark .operated]
  alt
    [seq [silent (lexeme (scanOperator prefixOperators)), operand],
     seq [words ["typeof", "void", "delete"], operand],
     seq [silent update, silent (checked isAssignable (symbol .unary)), mark .operated],
     seq [guard Scope.awaits, word "await", operand],
     -- Where markup may be written, a less-than sign starts an element instead.
     seq [guard fun scope => scope.typed && !scope.markup, punct "<",
       silent (alt [word "const", symbol .type]), punct ">", silent (symbol .unary),
       mark .asserted],
     checked (isValidChange .updated) (seq
       [symbol .leftHandSide, optSeq [sameLine, node .updated update]])]

/-! ### Operands -/

/-- An operand with what is done to it. -/
def leftHandSide : Phrase :=
  seq [alt [symbol .creation, symbol .primary], many (symbol .suffix)]

/-- A member of an operand. -/
def memberSuffix : Phrase :=
  alt
    [seq [punctAlone "." ".", alt [name, privateName]],
     silent (bracketed (symbol .expression))]

/-- A template, with what stands for the text in it. -/
def templateWith (text : Phrase) : Phrase :=
  seq [punct "\x60", text,
    many (seq [exactly "$\x7b", within Scope.bracketed (symbol .expression), punct "\x7d", text]),
    exactly "\x60"]

/-- A template that no function takes. -/
def template : Phrase := templateWith (token skipPlainTemplateText)

/-- A template that a function takes, in which any backslash may stand. -/
def taggedTemplate : Phrase := templateWith (token fun text => some (skipTemplateText text))

/-- What is created, and with which arguments. -/
def created : Phrase :=
  let unasserted : Phrase := seq [typed, sameLine, punctAlone "!" "="]
  seq
    [alt [symbol .creation, symbol .primary],
     many (alt [memberSuffix, taggedTemplate, unasserted]),
     optSeq [typed, symbol .typeArguments, ahead (punct "(")],
     alt [symbol .arguments, absent (token scanOptionalMark)]]

/-- The creation of an object. -/
def creation : Phrase :=
  seq [word "new", silent (alt [seq [punct ".", word "target"], created]), mark .operand]

/-- What can follow type arguments that no call follows. -/
def followsTypeArguments : Phrase :=
  ahead (alt
    [punct ")", punct "]", punct "\x7d", punct ":", punct ";", punct ",", punct ".", punct "?.",
     equals, newLine, endOfText])

/-- What is done to an operand. -/
def suffix : Phrase :=
  alt
    [seq [memberSuffix, mark .member],
     node .call (symbol .arguments),
     seq [token scanOptionalMark, silent (alt
       [bracketed (symbol .expression), seq [opt (seq [typed, symbol .typeArguments]), symbol .arguments],
        name, privateName]), mark .operated],
     seq [typed, sameLine, punctAlone "!" "=", mark .member],
     seq [silent taggedTemplate, mark .operand],
     -- A less-than sign opens type arguments only if what follows them fits.
     seq [typed, silent (symbol .typeArguments), alt
       [node .call (symbol .arguments), seq [silent taggedTemplate, mark .operand],
        seq [followsTypeArguments, mark .operand]]]]

/-- The arguments of a call, each under a label. -/
def arguments : Phrase :=
  let argument : Phrase :=
    alt [seq [punct "...", silent (symbol .assignment), mark .operated], symbol .assignment]
  parenthesized (optSeq
    [node .argument argument, many (seq [punct ",", node .argument argument]), opt (punct ",")])

/-- A literal or another operand that nothing can be assigned to. -/
def literal : Phrase :=
  alt
    [string, number, silent (symbol .template),
     words ["this", "null", "true", "false"],
     token scanRegex,
     silent (symbol .functionExpression),
     silent (classWith (classNameIfAny identifier)),
     silent (symbol .arrayLiteral),
     seq [word "super", ahead (alt [punct "(", punct ".", punct "["])],
     seq [word "import", alt [seq [punct ".", word "meta"], ahead (punct "(")]],
     seq [privateName, ahead (word "in")],
     seq [guard Scope.markup, silent (symbol .markup)]]

/-- A single operand. -/
def primary : Phrase :=
  seq [blanks, alt
    -- The word `async` is a name unless a function follows it.
    [seq [absent (seq [word "async", sameLine, word "function"]), identifier, mark .reference],
     symbol .objectLiteral,
     node .parenthesized (parenthesized (symbol .expression)),
     seq [literal, mark .operand]]]

/-! ### Objects and arrays -/

/-- What follows the name of a method of an object. -/
def objectMethodTail (isAsync isGenerator : Bool) : Phrase :=
  functionTail isAsync isGenerator

/-- A method of an object. -/
def objectMethod : Phrase :=
  let key : Phrase := symbol .propertyName
  alt
    [seq [memberModifier ["async"], sameLine,
       alt [seq [punct "*", key, objectMethodTail true true],
         seq [key, objectMethodTail true false]]],
     seq [punct "*", key, objectMethodTail false true],
     seq [memberModifier ["get", "set"], key, objectMethodTail false false],
     seq [key, objectMethodTail false false]]

/-- A property of an object. -/
def objectProperty : Phrase :=
  alt
    [node .spread (seq [punct "...", silent (symbol .assignment)]),
     node .property (seq [symbol .propertyName, punct ":", node .value (symbol .assignment)]),
     node .property objectMethod,
     node .property (node .nameKey (lexeme scanIdentifier))]

/-- An object literal. -/
def objectLiteral : Phrase :=
  node .object (braced (commaList (symbol .objectProperty)))

/-- An array literal. -/
def arrayLiteral : Phrase :=
  let item : Phrase := seq [opt (punct "..."), symbol .assignment]
  bracketed (seq [opt item, many (seq [punct ",", opt item])])

end PugLint.Script.Phrase
