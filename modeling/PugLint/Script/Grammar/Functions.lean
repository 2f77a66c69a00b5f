import PugLint.Script.Grammar.Types

/-!
# Functions and classes in scripts

The rules for what is bound, for parameters and bodies, and for classes.
-/

namespace PugLint.Script.Phrase

open Peg

/-- The name of a property: a name, a string, a number, or an expression in
    brackets. A name and a string are found under a label. -/
def propertyName : Phrase :=
  alt
    [node .nameKey (lexeme scanName),
     node .stringKey (lexeme scanString),
     number,
     seq [punct "[", node .stringKey (lexeme scanString), punct "]"],
     silent (bracketed (symbol .assignment))]

/-! ### What is bound -/

/-- What is bound and perhaps has an initial value. -/
def bindingElement : Phrase :=
  node .element (seq [symbol .bindingTarget, optSeq [initializer, mark .fallback]])

/-- What is bound: a name or a pattern. -/
def bindingTarget : Phrase := alt [bound, symbol .bindingPattern]

/-- A pattern for objects. What takes the rest comes last, without a comma. -/
def objectPattern (property rest : Phrase) : Phrase :=
  braced (alt [rest, optSeq [commaSeparated property, optSeq [punct ",", opt rest]]])

/-- A pattern for arrays. What takes the rest comes last, without a comma. -/
def arrayPattern (item rest : Phrase) : Phrase :=
  let others : Phrase := many (seq [punct ",", absent (punct "..."), opt item])
  bracketed (alt [rest, seq [opt item, others, optSeq [punct ",", rest]]])

/-- A property of a pattern. -/
def bindingProperty : Phrase :=
  alt
    [node .keyed (seq [symbol .propertyName, punct ":", bindingElement]),
     node .shorthand (node .element (seq [bound, optSeq [initializer, mark .fallback]]))]

/-- A pattern for objects or arrays. -/
def bindingPattern : Phrase :=
  alt
    [node .objectPattern
       (objectPattern bindingProperty (node .rest (seq [punct "...", bound]))),
     node .arrayPattern
       (arrayPattern (alt [bindingElement, seq [ahead (punct ","), mark .hole]])
         (node .rest (seq [punct "...", symbol .bindingTarget])))]

/-! ### Parameters and bodies -/

/-- The words in front of a parameter of a constructor. -/
def parameterModifiers : Phrase :=
  many (seq [typed, words ["public", "private", "protected", "readonly", "override"],
    ahead (symbol .bindingTarget)])

/-- A parameter. -/
def parameter : Phrase :=
  seq [many (symbol .decorator), parameterModifiers,
    alt [symbol .bindingTarget, seq [typed, word "this"]],
    optSeq [typed, punct "?"], symbol .typeSuffix, opt initializer]

/-- Parameters; one that takes all others comes last. -/
def parameterList : Phrase :=
  alt
    [seq [many (symbol .decorator), punct "...", symbol .bindingTarget, symbol .typeSuffix],
     seq [parameter, optSeq [punct ",", opt (symbol .parameterList)]]]

/-- The parameters of a function. -/
def parameters : Phrase := silent (parenthesized (opt (symbol .parameterList)))

/-- The body of a function. -/
def functionBody : Phrase := silent (symbol .block)

/-- What follows the name of a function, up to its body. -/
def functionHead : Phrase :=
  seq [typeParametersIfAny, symbol .parameters, symbol .returnSuffix]

/-- What follows the name of a function of a given kind. -/
def functionTail (isAsync isGenerator : Bool) : Phrase :=
  within (Scope.function isAsync isGenerator) (seq [functionHead, symbol .functionBody])

/-- A function of a given kind, with what stands for its name and what may stand
    for its body. -/
def functionWith (subject : Phrase) (tail : Bool → Bool → Phrase) : Phrase :=
  alt
    [seq [word "async", sameLine, word "function",
       alt [seq [punct "*", subject, tail true true], seq [subject, tail true false]]],
     seq [word "function",
       alt [seq [punct "*", subject, tail false true], seq [subject, tail false false]]]]

/-- A function in an expression. -/
def functionExpression : Phrase := functionWith (opt identifier) functionTail

/-- What follows the name of a declared function, whose body may be given
    elsewhere. -/
def declaredTail (isAsync isGenerator : Bool) : Phrase :=
  alt [functionTail isAsync isGenerator, seq [typed, functionHead, endOfStatement]]

/-- The declaration of a function. -/
def functionDeclaration : Phrase := functionWith bound declaredTail

/-! ### Classes -/

/-- A decorator. -/
def decorator : Phrase :=
  silent <| seq [punct "@", alt
    [parenthesized (symbol .expression),
     seq [identifier, many (seq [punct ".", alt [name, privateName]]),
       optSeq [typed, symbol .typeArguments], opt (symbol .arguments)]]]

/-- A word in front of a member, unless it is the name of the member. -/
def memberModifier (texts : List String) : Phrase :=
  seq [words texts, absent (alt
    [punct "(", punct "=", punct ";", punct ":", punct "?", punct "!", punct "\x7d", punct "<",
     punct ","])]

/-- The words in front of a member of a class. -/
def memberModifiers : Phrase :=
  many (alt
    [memberModifier ["static"],
     seq [typed, memberModifier
       ["public", "private", "protected", "readonly", "abstract", "override", "declare"]],
     memberModifier ["accessor"]])

/-- The name of a member of a class. -/
def memberName : Phrase := alt [privateName, symbol .propertyName]

/-- What follows the name of a method, whose body may be given elsewhere. -/
def methodTail (isAsync isGenerator : Bool) : Phrase :=
  seq [optSeq [typed, punct "?"], declaredTail isAsync isGenerator]

/-- A method. -/
def method : Phrase :=
  alt
    [seq [memberModifier ["async"], sameLine,
       alt [seq [punct "*", memberName, methodTail true true],
         seq [memberName, methodTail true false]]],
     seq [punct "*", memberName, methodTail false true],
     seq [memberModifier ["get", "set"], memberName, methodTail false false],
     seq [memberName, methodTail false false]]

/-- A field. -/
def field : Phrase :=
  seq [memberName, optSeq [typed, alt [punct "?", punct "!"]], symbol .typeSuffix,
    opt (within (Scope.function false false) initializer), endOfStatement]

/-- An element of a class. -/
def classElement : Phrase :=
  alt
    [punct ";",
     seq [word "static", ahead (punct "\x7b"),
       within (Scope.function false false) (symbol .functionBody)],
     seq [many (symbol .decorator), memberModifiers,
       alt [method, field, seq [typed, indexSignature, endOfStatement]]]]

/-- What follows the name of a class. -/
def classTail : Phrase :=
  silent <| seq [typeParametersIfAny,
    optSeq [word "extends", symbol .leftHandSide, optSeq [typed, symbol .typeArguments]],
    optSeq [typed, word "implements", commaSeparated typeReference],
    punct "\x7b", many (symbol .classElement), punct "\x7d"]

/-- A class with what stands for its name. -/
def classWith (subject : Phrase) : Phrase :=
  seq [many (symbol .decorator), word "class", subject, symbol .classTail]

/-- The name of a class, if it has one. -/
def classNameIfAny (subject : Phrase) : Phrase :=
  opt (seq [absent (seq [typed, word "implements", typeReference, punct "\x7b"]), subject])

/-- The declaration of a class. -/
def classDeclaration : Phrase := classWith bound

end PugLint.Script.Phrase
