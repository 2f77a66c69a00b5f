import PugLint.Script.Symbol

/-!
# Types in scripts

The rules for types, and for what functions and object types say about
themselves.
-/

namespace PugLint.Script.Phrase

open Peg

/-- A reference to a type: names joined by dots, and type arguments. -/
def typeReference : Phrase :=
  seq [identifier, many (seq [punct ".", name]), optSeq [sameLine, symbol .typeArguments]]

/-- A function type. -/
def functionType : Phrase :=
  alt
    [seq [opt (symbol .typeParameters), symbol .parameters, punct "=>", symbol .returnType],
     seq [opt (word "abstract"), word "new", opt (symbol .typeParameters), symbol .parameters,
       punct "=>", symbol .type]]

/-- Types joined by `|`, or a function type. -/
def plainType : Phrase :=
  alt
    [symbol .functionType,
     seq [opt (punctAlone "|" "|="), symbol .intersectionType,
       many (seq [punctAlone "|" "|=", alt [symbol .functionType, symbol .intersectionType]])]]

/-- A type, which may depend on a condition. -/
def type : Phrase :=
  seq [symbol .plainType,
    optSeq [sameLine, word "extends", symbol .plainType, punct "?", symbol .type, punct ":",
      symbol .type]]

/-- Types joined by `&`. -/
def intersectionType : Phrase :=
  seq [opt (punctAlone "&" "&="), symbol .operatorType,
    many (seq [punctAlone "&" "&=", symbol .operatorType])]

/-- A type with operators in front of it and brackets behind it. -/
def operatorType : Phrase :=
  alt
    [seq [words ["keyof", "unique", "readonly"], symbol .operatorType],
     seq [word "infer", identifier,
       optSeq [word "extends", symbol .plainType, absent (punct "?")]],
     seq [symbol .primaryType, many (seq [sameLine, punct "[", opt (symbol .type), punct "]"])]]

/-- An element of a tuple type. -/
def tupleElement : Phrase :=
  alt
    [seq [opt (punct "..."), name, opt (punct "?"), punct ":", symbol .type],
     seq [punct "...", symbol .type],
     seq [symbol .type, opt (punct "?")]]

/-- A template in a type. -/
def templateType : Phrase :=
  seq [punct "\x60", token fun text => some (skipTemplateText text),
    many (seq [exactly "$\x7b", symbol .type, punct "\x7d",
      token fun text => some (skipTemplateText text)]),
    exactly "\x60"]

/-- A type that is no combination of others. -/
def primaryType : Phrase :=
  alt
    [parenthesized (symbol .type),
     symbol .objectType,
     bracketed (commaList tupleElement),
     string,
     seq [opt (punct "-"), number],
     templateType,
     seq [word "typeof", alt
       [seq [word "import", parenthesized (symbol .type), many (seq [punct ".", name])],
        seq [alt [word "this", identifier], many (seq [punct ".", alt [name, privateName]])]],
       optSeq [sameLine, symbol .typeArguments]],
     seq [word "import", parenthesized (seq [symbol .type, optSeq [punct ",", symbol .assignment]]),
       many (seq [punct ".", name]), optSeq [sameLine, symbol .typeArguments]],
     words ["void", "null", "true", "false", "this"],
     typeReference]

/-- The types between angle brackets. -/
def typeArguments : Phrase := seq [punct "<", commaSeparated (symbol .type), opt (punct ","), punct ">"]

/-- A type parameter. -/
def typeParameter : Phrase :=
  seq [opt (word "const"), opt (word "in"), optSeq [word "out", ahead identifier], identifier,
    optSeq [word "extends", symbol .type], optSeq [equals, symbol .type]]

/-- The declaration of type parameters. -/
def typeParameters : Phrase :=
  seq [punct "<", commaSeparated typeParameter, opt (punct ","), punct ">"]

/-- The type that a function returns, or what it says about its arguments. -/
def returnType : Phrase :=
  let subject : Phrase := alt [word "this", identifier]
  alt
    [seq [word "asserts", sameLine, subject, optSeq [word "is", symbol .type]],
     seq [subject, sameLine, word "is", symbol .type],
     symbol .type]

/-- What a function type says about itself. -/
def signature : Phrase :=
  seq [opt (symbol .typeParameters), symbol .parameters, symbol .returnSuffix]

/-- A member whose names are those of another type. -/
def mappedMember : Phrase :=
  let signed (rule : Phrase) : Phrase := seq [opt (alt [punct "+", punct "-"]), rule]
  seq [opt (signed (word "readonly")), punct "[", identifier, word "in", symbol .type,
    optSeq [word "as", symbol .type], punct "]", opt (signed (punct "?")),
    optSeq [punct ":", symbol .type], opt (alt [punct ";", punct ","])]

/-- An index signature. -/
def indexSignature : Phrase :=
  seq [punct "[", identifier, punct ":", symbol .type, punct "]", punct ":", symbol .type]

/-- A member of an object type. -/
def typeMember : Phrase :=
  let property : Phrase := seq [symbol .propertyName, opt (punct "?"),
    alt [signature, symbol .typeSuffix]]
  let propertyEnd : Phrase :=
    alt [punct ";", punct ",", ahead (punct "\x7d"), newLine]
  let ended (rule : Phrase) : Phrase := seq [rule, propertyEnd]
  alt
    [ended signature,
     ended (seq [word "new", signature]),
     ended (seq [opt (word "readonly"), indexSignature]),
     ended (seq [words ["get", "set"], symbol .propertyName, symbol .parameters,
       symbol .returnSuffix]),
     ended (seq [word "readonly", property]),
     ended property]

/-- The members of an object type. -/
def objectType : Phrase :=
  seq [punct "\x7b", alt [seq [mappedMember, punct "\x7d"],
    seq [many (symbol .typeMember), punct "\x7d"]]]

/-- The type behind something, if it is written. -/
def typeSuffix : Phrase := silent (optSeq [typed, punct ":", symbol .type])

/-- The type that a function returns, if it is written. -/
def returnSuffix : Phrase := silent (optSeq [typed, punct ":", symbol .returnType])

/-- Type parameters, if there are any. -/
def typeParametersIfAny : Phrase := optSeq [typed, symbol .typeParameters]

end PugLint.Script.Phrase
