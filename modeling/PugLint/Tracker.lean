import PugLint.Chain
import PugLint.Element
import PugLint.Markup

/-!
# Trackers

What is known about the place reached when tokens are gone through in their
order: the depth, the element whose head is being read, the attributes of its
list so far and the open conditional chains.
-/

namespace PugLint

/-- What is known at a token. -/
structure Trackers where
  /-- The number of levels of indentation. -/
  depth : Nat
  /-- The last element that was started, and its name. -/
  currentTag : Option (Nat × String)
  /-- The attributes so far of the last list that was opened. -/
  scope : List Nat
  /-- Whether that list is still open. -/
  scopeOpen : Bool
  /-- The open chains. -/
  chains : Chains
  /-- The chain in front of the last element that was started. -/
  chainBefore : Option Chain
  deriving Repr, Inhabited

namespace Trackers

/-- What is known in front of the first token. -/
def start : Trackers := ⟨0, none, [], false, .empty, none⟩

/-- What a token changes, elements apart. -/
def afterToken (trackers : Trackers) (i : Nat) : TokenKind → Trackers
  | .indent _ => { trackers with depth := trackers.depth + 1 }
  | .outdent => { trackers with depth := trackers.depth - 1 }
  | .startAttributes => { trackers with scope := [], scopeOpen := true }
  | .attribute _ _ _ =>
    if trackers.scopeOpen then { trackers with scope := trackers.scope ++ [i] } else trackers
  | .endAttributes => { trackers with scopeOpen := false }
  | _ => trackers

/-- What the start of an element changes. -/
def afterElement (trackers : Trackers) (id : Nat) (element : Element)
    (conditional : Conditional) : Trackers :=
  { trackers with
    currentTag := some (id, element.name)
    chains := trackers.chains.enter element.depth conditional
    chainBefore := trackers.chains.entry? element.depth }

/-- What is known at the token with number `i`, given what is known in front of
    it. -/
def update (trackers : Trackers) (tokens : Array PlacedToken) (tree : ElementTree) (i : Nat) :
    Trackers :=
  let kind := (tokens[i]?.map PlacedToken.kind).getD .eos
  let trackers := trackers.afterToken i kind
  match tree.elementAt? i with
  | some id =>
    match tree.nodes[id]? with
    | some element =>
      trackers.afterElement id element (Conditional.ofTokens tokens element.attributes)
    | none => trackers
  | none => trackers

end Trackers

/-- Whether an element is a custom component: no element of a markup language
    has its name, and no `is` attribute says what it is. -/
def isCustomComponent (name : String) (attributes : List PlacedToken) : Bool :=
  !Markup.isKnownElement name && !attributes.any fun token =>
    token.attribute?.any fun (attr, _) =>
      attr == "is" || attr == ":is" || attr == "v-bind:is"

end PugLint
