import PugLint.Component
import PugLint.Script.Syntax

/-!
# Scripts of a component

What a template may refer to from the scripts of its component: the components
that are registered by name, which are the keys of the `components` option of
the default export, and the names that a script binds at its top. A script that
cannot be read offers nothing.

* `Script.BindingPattern.names`: the names that a pattern binds;
* `ScriptInfo.scan`: what the scripts of a component offer together.
-/

namespace PugLint

namespace Script

/-! ### Names -/

mutual

/-- The names that a pattern binds, in their order. -/
def BindingPattern.names : BindingPattern → List String
  | .identifier name => [name]
  | .object properties rest => namesOfProperties properties ++ namesOfRest rest
  | .array elements rest => namesOfElements elements ++ namesOfRest rest
  | .assignment left => left.names

/-- The names that the properties of a pattern bind; their keys bind nothing. -/
def BindingPattern.namesOfProperties : List BindingProperty → List String
  | [] => []
  | .mk _ value :: properties => value.names ++ namesOfProperties properties

/-- The names that the items of a pattern bind. -/
def BindingPattern.namesOfElements : List (Option BindingPattern) → List String
  | [] => []
  | none :: elements => namesOfElements elements
  | some element :: elements => element.names ++ namesOfElements elements

/-- The names that what takes the rest binds. -/
def BindingPattern.namesOfRest : Option BindingPattern → List String
  | none => []
  | some rest => rest.names

end

/-- The names that a declaration binds. -/
def Declaration.names : Declaration → List String
  | ofVariables declarators => declarators.flatMap BindingPattern.names
  | ofFunction name => name.toList
  | ofClass name => name.toList
  | other => []

/-- The name that a specifier binds, unless it stands for a type. -/
def ImportSpecifier.name? : ImportSpecifier → Option String
  | named isType name => if isType then none else some name
  | ofDefault name => some name
  | ofNamespace name => some name

/-- The text of a key, if it is known. -/
def PropertyKey.text? : PropertyKey → Option String
  | identifier name => some name
  | string value => some value
  | other => none

end Script

/-- A name bound by a script. -/
structure ScriptBinding where
  /-- The name. -/
  name : String
  /-- Whether the script is a setup script. -/
  setup : Bool
  deriving DecidableEq, Repr, Inhabited

/-- What the scripts of a component offer to its template. -/
structure ScriptInfo where
  /-- The registered components, each once, in the order of the scripts. -/
  components : List String := []
  /-- The bound names, each once, in the order of the scripts. -/
  bindings : List ScriptBinding := []
  deriving DecidableEq, Repr, Inhabited

namespace ScriptInfo

/-! ### Statements -/

open Script

/-- Components with those that an entry of the `components` option registers, if
    its key is known. -/
def addComponent (components : List String) : ObjectMember → List String
  | .property key _ =>
    match key.text? with
    | some name => if components.contains name then components else components ++ [name]
    | none => components
  | .spread => components

/-- Components with those that a member of the options of a component
    registers. -/
def addOption (components : List String) : ObjectMember → List String
  | .property key (.object entries) =>
    if key.text? == some "components" then entries.foldl addComponent components else components
  | _ => components

/-- What statements have offered: components, and the names that they bind. -/
structure Offer where
  /-- The components, also those of the scripts in front. -/
  components : List String
  /-- The names, with repetitions. -/
  names : List String
  deriving DecidableEq, Repr, Inhabited

namespace Offer

/-- What is offered with more names. -/
def bind (offer : Offer) (names : List String) : Offer :=
  { offer with names := offer.names ++ names }

/-- What is offered with the options of a component. -/
def register (offer : Offer) (members : List ObjectMember) : Offer :=
  { offer with components := members.foldl addOption offer.components }

/-- What is offered with one more statement. -/
def addStatement (offer : Offer) : Statement → Offer
  | .ofImport true _ => offer
  | .ofImport false none => offer
  | .ofImport false (some specifiers) => offer.bind (specifiers.filterMap ImportSpecifier.name?)
  | .ofDeclaration declaration => offer.bind declaration.names
  | .exportNamed none => offer
  | .exportNamed (some declaration) => offer.bind declaration.names
  | .exportDefault (.object members) => offer.register members
  -- A function that takes the options and gives them back.
  | .exportDefault (.call (.object members :: _)) => offer.register members
  | .exportDefault (.ofFunction name) => offer.bind name.toList
  | .exportDefault (.ofClass name) => offer.bind name.toList
  | .exportDefault _ => offer
  | .other => offer

end Offer

/-! ### Scripts -/

/-- Bindings with that of a name in a script. Of two bindings of a name the first
    one counts. -/
def bind (setup : Bool) (bindings : List ScriptBinding) (name : String) : List ScriptBinding :=
  if bindings.any (·.name == name) then bindings else bindings ++ [⟨name, setup⟩]

/-- What is offered with the statements of one more script. -/
def addStatements (info : ScriptInfo) (setup : Bool) (statements : List Statement) : ScriptInfo :=
  let offer := statements.foldl Offer.addStatement ⟨info.components, []⟩
  ⟨offer.components, offer.names.foldl (bind setup) info.bindings⟩

variable [ScriptParser]

/-- What is offered with one more script. -/
def addBlock (info : ScriptInfo) (block : ScriptBlock) : ScriptInfo :=
  match ScriptParser.parse? (.ofName block.lang) block.content with
  | some statements => info.addStatements block.setup statements
  | none => info

/-- What the scripts of a component offer together. -/
def scan (blocks : List ScriptBlock) : ScriptInfo :=
  blocks.foldl addBlock {}

omit [ScriptParser]

/-! ### What a template asks -/

/-- The names that setup scripts bind. -/
def setupBindings (info : ScriptInfo) : List String :=
  (info.bindings.filter ScriptBinding.setup).map ScriptBinding.name

/-- Whether a name is bound by a setup script. -/
def hasSetupBinding (info : ScriptInfo) (name : String) : Bool :=
  info.setupBindings.contains name

/-- The components that the template can use by name. -/
def registeredComponents (info : ScriptInfo) : List String :=
  info.components ++ info.setupBindings

end ScriptInfo

end PugLint
