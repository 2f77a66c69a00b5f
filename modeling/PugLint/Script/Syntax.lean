/-!
# The syntax of scripts

The statements of a script, down to what the names it binds and the options it
exports depend on; all other parts are left out. How a text is read is not said
here: a parser gives the statements of a script, or refuses it.

* `Script.BindingPattern`, `Script.Statement`: the syntax;
* `ScriptParser`: parsers of scripts.
-/

namespace PugLint

namespace Script

/-- The languages of scripts. -/
inductive Language where
  /-- With types. -/
  | typed
  /-- With types and markup. -/
  | typedMarkup
  /-- With markup alone. -/
  | markup
  deriving DecidableEq, Repr, Inhabited

/-- The language with a given name; any other name stands for types without
    markup. -/
def Language.ofName : Option String → Language
  | some "tsx" => typedMarkup
  | some "jsx" => markup
  | _ => typed

/-- The key of a property. -/
inductive PropertyKey where
  /-- A name. -/
  | identifier (name : String)
  /-- A string, perhaps in brackets. -/
  | string (value : String)
  /-- A number, a private name or an expression in brackets. -/
  | other
  deriving DecidableEq, Repr, Inhabited

mutual

/-- What a declaration binds. -/
inductive BindingPattern where
  /-- A name. -/
  | identifier (name : String)
  /-- The properties of an object, and what takes the other ones. -/
  | object (properties : List BindingProperty) (rest : Option BindingPattern)
  /-- The items of an array, some of which may be left out, and what takes the
      other ones. -/
  | array (elements : List (Option BindingPattern)) (rest : Option BindingPattern)
  /-- A pattern with a default value. -/
  | assignment (left : BindingPattern)

/-- A property of an object and the pattern for its value. -/
inductive BindingProperty where
  /-- The key and the pattern. -/
  | mk (key : PropertyKey) (value : BindingPattern)

end

mutual

/-- An expression: an object literal, or any other. -/
inductive Expression where
  /-- An object literal. -/
  | object (members : List ObjectMember)
  /-- Any other expression. -/
  | other

/-- A member of an object literal. -/
inductive ObjectMember where
  /-- A property or a method. -/
  | property (key : PropertyKey) (value : Expression)
  /-- The properties of another object. -/
  | spread

end

/-- What an import declares under a name of its own. -/
inductive ImportSpecifier where
  /-- Something of another script, perhaps as a type alone. -/
  | named (isType : Bool) (name : String)
  /-- The default export of another script. -/
  | ofDefault (name : String)
  /-- All that another script exports. -/
  | ofNamespace (name : String)
  deriving DecidableEq, Repr, Inhabited

/-- A declaration. -/
inductive Declaration where
  /-- The declaration of variables. -/
  | ofVariables (declarators : List BindingPattern)
  /-- The declaration of a function. -/
  | ofFunction (name : Option String)
  /-- The declaration of a class. -/
  | ofClass (name : Option String)
  /-- Any other declaration. -/
  | other

/-- The default export of a script. -/
inductive DefaultExport where
  /-- An object literal. -/
  | object (members : List ObjectMember)
  /-- A call. -/
  | call (arguments : List Expression)
  /-- A function. -/
  | ofFunction (name : Option String)
  /-- A class. -/
  | ofClass (name : Option String)
  /-- Anything else. -/
  | other

/-- A statement at the top of a script. -/
inductive Statement where
  /-- An import, perhaps of types alone. One that only runs the other script has
      no specifiers. -/
  | ofImport (isType : Bool) (specifiers : Option (List ImportSpecifier))
  /-- A declaration. -/
  | ofDeclaration (declaration : Declaration)
  /-- An export of names, perhaps with their declaration. -/
  | exportNamed (declaration : Option Declaration)
  /-- The default export. -/
  | exportDefault (value : DefaultExport)
  /-- Any other statement. -/
  | other

end Script

/-- A parser of scripts. -/
class ScriptParser where
  /-- The statements at the top of a script, unless its syntax is wrong. -/
  parse? : Script.Language → String → Option (List Script.Statement)

/-- The parser that knows the statements of some scripts and refuses all others,
    whatever their language. -/
@[reducible]
def ScriptParser.ofList (scripts : List (String × List Script.Statement)) : ScriptParser where
  parse? _ text := scripts.lookup text

/-- The parser that refuses every script. -/
@[reducible]
def ScriptParser.never : ScriptParser := .ofList []

end PugLint
