import PugLint.Script
import PugLint.Script.Grammar

/-!
# Reading scripts

A parser that scripts can be read with: what the grammar finds in a text is put
together to the statements of a script. Nothing that is shown of scripts depends
on it.
-/

namespace PugLint.Script

/-! ### Names and keys -/

/-- The name that is bound, if a tree is one. -/
def boundName? : Tree Label → Option String
  | .node .binding [.leaf text] => some (String.ofList text)
  | _ => none

/-- The first name that is bound in some trees. -/
def firstName? (trees : List (Tree Label)) : Option String :=
  trees.findSome? boundName?

/-- The key in front of some trees. -/
def keyOf : List (Tree Label) → PropertyKey
  | .node .nameKey [.leaf text] :: _ => .identifier (String.ofList text)
  | .node .stringKey [.leaf text] :: _ => .string (String.ofList (stringValue text))
  | _ => .other

/-! ### Patterns -/

mutual

/-- The pattern that a tree stands for. -/
def patternOf? : Tree Label → Option BindingPattern
  | .node .binding [.leaf text] => some (.identifier (String.ofList text))
  | .node .objectPattern trees => some (.object (propertiesOf trees) (restOf? trees))
  | .node .arrayPattern trees => some (.array (elementsOf trees) (restOf? trees))
  | .node .element [target] => patternOf? target
  | .node .element (target :: _) => (patternOf? target).map .assignment
  | _ => none

/-- The properties among some trees. -/
def propertiesOf : List (Tree Label) → List BindingProperty
  | [] => []
  | .node .shorthand [element] :: trees =>
    let property := (patternOf? element).map fun value =>
      BindingProperty.mk (.identifier (value.names.headD "")) value
    property.toList ++ propertiesOf trees
  | .node .keyed [key, element] :: trees =>
    ((patternOf? element).map (.mk (keyOf [key]))).toList ++ propertiesOf trees
  | .node .keyed [element] :: trees =>
    ((patternOf? element).map (.mk .other)).toList ++ propertiesOf trees
  | _ :: trees => propertiesOf trees

/-- The items among some trees. -/
def elementsOf : List (Tree Label) → List (Option BindingPattern)
  | [] => []
  | .node .hole _ :: trees => none :: elementsOf trees
  | .node .element [target] :: trees => patternOf? target :: elementsOf trees
  | .node .element (target :: _) :: trees =>
    (patternOf? target).map .assignment :: elementsOf trees
  | _ :: trees => elementsOf trees

/-- What takes the rest among some trees. -/
def restOf? : List (Tree Label) → Option BindingPattern
  | [] => none
  | .node .rest [target] :: _ => patternOf? target
  | _ :: trees => restOf? trees

end

/-! ### Expressions -/

mutual

/-- The expression that some trees stand for. -/
def expressionOf : List (Tree Label) → Expression
  | [.node .object trees] => .object (membersOf trees)
  | _ => .other

/-- The members among some trees. -/
def membersOf : List (Tree Label) → List ObjectMember
  | [] => []
  | .node .property [key, .node .value value] :: trees =>
    .property (keyOf [key]) (expressionOf value) :: membersOf trees
  -- The value of a property without a known key, or a method.
  | .node .property found :: trees => .property (keyOf found) .other :: membersOf trees
  | .node .spread _ :: trees => .spread :: membersOf trees
  | _ :: trees => membersOf trees

end

/-- The arguments of a call. -/
def argumentsOf (trees : List (Tree Label)) : List Expression :=
  trees.filterMap fun tree =>
    match tree with
    | .node .argument argument => some (expressionOf argument)
    | _ => none

/-- The value of the default export. A call is one if nothing but operands stands
    in front of it. -/
def defaultValueOf (found : List (Tree Label)) : DefaultExport :=
  let isOperand (tree : Tree Label) : Bool :=
    [Label.reference, .member, .parenthesized, .call, .operand].any (Phrase.hasLabel · tree)
  match expressionOf found, found.getLast? with
  | .object members, _ => .object members
  | .other, some (.node .call trees) =>
    if found.all isOperand then .call (argumentsOf trees) else .other
  | .other, _ => .other

/-! ### Statements -/

/-- The specifier that a tree stands for. -/
def specifierOf? : Tree Label → Option ImportSpecifier
  | .node .specifier trees => (firstName? trees).map (.named false)
  -- The name `as` stands for itself where nothing else does.
  | .node .typeSpecifier trees => some (.named true ((firstName? trees).getD "as"))
  | .node .defaultSpecifier trees => (firstName? trees).map .ofDefault
  | .node .namespaceSpecifier trees => (firstName? trees).map .ofNamespace
  | _ => none

/-- The declaration that a tree stands for. -/
def declarationOf? : Tree Label → Option Declaration
  | .node .ofVariables trees => some (.ofVariables (trees.filterMap patternOf?))
  | .node .ofFunction trees => some (.ofFunction (firstName? trees))
  | .node .ofClass trees => some (.ofClass (firstName? trees))
  | .node .otherDeclaration _ => some .other
  | _ => none

/-- The default export that a tree stands for. -/
def defaultExportOf : Tree Label → DefaultExport
  | .node .ofFunction trees => .ofFunction (firstName? trees)
  | .node .ofClass trees => .ofClass (firstName? trees)
  | .node .defaultValue found => defaultValueOf found
  | _ => .other

/-- The statement that a tree stands for. -/
def statementOf? : Tree Label → Option Statement
  | .node .ofImport trees => some (.ofImport false (trees.filterMap specifierOf?))
  | .node .typeImport trees => some (.ofImport true (trees.filterMap specifierOf?))
  | .node .plainImport _ => some (.ofImport false none)
  | .node .exportNamed trees => some (.exportNamed (trees.findSome? declarationOf?))
  | .node .exportDefault trees => (trees.head?.map defaultExportOf).map .exportDefault
  | .node .otherStatement _ => some .other
  | tree => (declarationOf? tree).map .ofDeclaration

/-- The statements of a script, if the grammar can read it. -/
def parse? (language : Language) (text : String) : Option (List Statement) :=
  (trees? language text).map (List.filterMap statementOf?)

/-- Scripts are read with the grammar. -/
instance grammarParser : ScriptParser := ⟨parse?⟩

end PugLint.Script
