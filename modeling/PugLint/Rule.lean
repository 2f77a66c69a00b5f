import PugLint.Diagnostic
import PugLint.Json.Value
import PugLint.LineIndex
import PugLint.Script
import PugLint.Stream
import PugLint.Tracker

/-!
# Rules

A rule looks at the template block and then at the tokens in their order, and
says what it finds. It keeps no state of its own: what it may know of a place
is given to it as a `View`, and what it finds is a list of `Finding`s.
-/

namespace PugLint

/-- A document that is being checked. -/
structure Document where
  /-- The whole text. -/
  source : String
  /-- The template block. -/
  template : TemplateBlock
  /-- What the scripts offer. -/
  script : ScriptInfo
  /-- The lines of the document. -/
  lines : LineIndex
  /-- The tokens and elements of the template. -/
  stream : TokenStream

/-- The kinds of places where a rule is asked. -/
inductive Event where
  /-- The template block as a whole, before its tokens. -/
  | block
  /-- A token that starts an element. -/
  | element
  /-- The start of a list of attributes. -/
  | enterAttributes
  /-- An attribute. -/
  | attribute
  /-- The end of a list of attributes. -/
  | exitAttributes
  /-- Text. -/
  | text
  /-- The start of a deeper line. -/
  | indent
  /-- The end of a level of depth. -/
  | outdent
  /-- The end of the template. -/
  | finish
  deriving DecidableEq, Repr, Inhabited

/-- The event at a kind of token, if rules are asked there. -/
def Event.ofKind? : TokenKind → Option Event
  | .startAttributes => some .enterAttributes
  | .attribute _ _ _ => some .attribute
  | .endAttributes => some .exitAttributes
  | .text _ => some .text
  | .indent _ => some .indent
  | .outdent => some .outdent
  | .eos => some .finish
  | _ => none

/-- What a rule may know of the place where it is asked. -/
structure View where
  /-- The document. -/
  document : Document
  /-- What is known at the token. -/
  trackers : Trackers
  /-- The number of the token. -/
  index : Nat

namespace View

/-- The tokens of the template. -/
def tokens (view : View) : Array PlacedToken := view.document.stream.tokens

/-- The elements of the template. -/
def tree (view : View) : ElementTree := view.document.stream.tree

/-- The token with a given number. -/
def token? (view : View) (i : Nat) : Option PlacedToken := view.tokens[i]?

/-- The token at hand. -/
def token (view : View) : PlacedToken := (view.token? view.index).getD default

/-- The element with a given number. -/
def node? (view : View) (id : Nat) : Option Element := view.tree.nodes[id]?

/-- The element that the token at hand starts. -/
def element? (view : View) : Option Element :=
  (view.tree.elementAt? view.index).bind view.node?

/-- The number of the innermost element that the token at hand is part of. -/
def ownerId? (view : View) : Option Nat := view.tree.owner? view.index

/-- The innermost element that the token at hand is part of. -/
def owner? (view : View) : Option Element := view.ownerId?.bind view.node?

/-- The attribute tokens of an element. -/
def attributes (view : View) (element : Element) : List PlacedToken :=
  element.attributes.filterMap view.token?

/-- The first attribute of an element with one of the given names. -/
def findAttribute? (view : View) (element : Element) (names : List String) :
    Option PlacedToken :=
  (view.attributes element).find? fun token =>
    token.attribute?.any fun (name, _) => names.contains name

/-- The first attribute of an element that is a given directive. -/
def findDirective? (view : View) (element : Element) (name : String) : Option PlacedToken :=
  (view.attributes element).find? fun token =>
    (token.attribute?.bind fun (raw, _) => Directive.parse? raw).any (·.is name)

/-- Whether an element has a given directive, in any spelling. -/
def hasDirective (view : View) (element : Element) (name : String) : Bool :=
  (view.findDirective? element name).isSome

/-- Whether an element is a custom component. -/
def isCustomComponent (view : View) (element : Element) : Bool :=
  PugLint.isCustomComponent element.name (view.attributes element)

end View

namespace PlacedToken

/-- The range of the name of an attribute, or the whole token. -/
def nameRange (token : PlacedToken) : Nat × Nat :=
  token.nameRange?.getD (token.start, token.stop)

/-- The range of the value of an attribute, or the whole token. -/
def valueRange (token : PlacedToken) : Nat × Nat :=
  token.valueRange?.getD (token.start, token.stop)

/-- Where the text inside the quotes of a value starts. -/
def expressionStart (token : PlacedToken) (value : String) : Nat :=
  token.valueRange.1 + Expression.unquotedOffset value

/-- The range of the text inside the quotes of a value. -/
def expressionRange (token : PlacedToken) (value : String) : Nat × Nat :=
  let start := token.expressionStart value
  (start, min (start + (Expression.unquote value).utf8ByteSize) token.stop)

/-- An edit of a range that lies within a token. -/
def edit? (token : PlacedToken) (start stop : Nat) (newText : String) : Option Edit :=
  if token.start ≤ start && start ≤ stop && stop ≤ token.stop then some ⟨start, stop, newText⟩
  else none

end PlacedToken

/-- What a rule finds. -/
inductive Finding where
  /-- A problem: a message of the rule, the values of its slots, a range, and a
      way to mend it. -/
  | problem (messageId : String) (data : List (String × String)) (start stop : Nat)
      (fix : Option Fix)
  /-- The use of a name that a script binds. -/
  | usesBinding (name : String)
  deriving DecidableEq, Repr

/-- A problem over a range, without a fix. -/
def Finding.over (messageId : String) (data : List (String × String)) (range : Nat × Nat) :
    Finding :=
  .problem messageId data range.1 range.2 none

/-- The sets that rules belong to. -/
inductive RuleCategory where
  /-- Rules that prevent errors. -/
  | essential
  /-- Rules that make templates easier to read. -/
  | stronglyRecommended
  /-- Rules for consistency. -/
  | recommended
  /-- Rules of every preset, which report nothing. -/
  | base
  deriving DecidableEq, Repr, Inhabited

/-- What is said about a rule. -/
structure RuleInfo where
  /-- The name of the rule. -/
  name : String
  /-- What the rule is for. -/
  description : String
  /-- The set that the rule belongs to. -/
  category : RuleCategory
  /-- Whether problems come with fixes. -/
  fixable : Bool
  /-- The severity of the rule unless it is configured. -/
  severity : Severity
  /-- The messages of the rule by their ids. -/
  messages : List (String × String)
  deriving DecidableEq, Repr, Inhabited

/-- The message with a given id. -/
def RuleInfo.message? (info : RuleInfo) (id : String) : Option String :=
  info.messages.lookup id

/-- A rule: what is said about it, its options, and what it finds at a place. -/
structure Rule where
  /-- What is said about the rule. -/
  info : RuleInfo
  /-- The options of the rule, null if it takes none. -/
  options : Json.Value := .null
  /-- What the rule finds. -/
  check : Event → View → List Finding

/-- The name of a rule. -/
def Rule.name (rule : Rule) : String := rule.info.name

namespace Rule

/-- A check of attributes alone: the token, its name and its value. -/
def atAttributes (check : View → PlacedToken → String → Option String → List Finding) :
    Event → View → List Finding
  | .attribute, view =>
    match view.token.attribute? with
    | some (name, value) => check view view.token name value
    | none => []
  | _, _ => []

/-- A check of one directive alone. -/
def atDirective (name : String)
    (check : View → PlacedToken → Directive → Option String → List Finding) :
    Event → View → List Finding :=
  atAttributes fun view token raw value =>
    match Directive.parse? raw with
    | some directive => if directive.is name then check view token directive value else []
    | none => []

/-- A check of text alone. -/
def atText (check : View → PlacedToken → String → List Finding) : Event → View → List Finding
  | .text, view =>
    match view.token.kind.textValue? with
    | some text => check view view.token text
    | none => []
  | _, _ => []

/-- A check of the starts of elements alone. -/
def atElements (check : View → PlacedToken → Element → List Finding) :
    Event → View → List Finding
  | .element, view =>
    match view.element? with
    | some element => check view view.token element
    | none => []
  | _, _ => []

/-- Two checks, one after the other. -/
def both (first second : Event → View → List Finding) (event : Event) (view : View) :
    List Finding :=
  first event view ++ second event view

end Rule

end PugLint
