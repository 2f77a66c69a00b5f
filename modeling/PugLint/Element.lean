import PugLint.Placement

/-!
# Elements

The elements of a template as a forest. Nesting follows the indentation: an
element stays open until a line starts that is no deeper than its own, and an
element behind a colon is nested in the one in front of it.

Elements are numbered in the order of their first tokens and refer to each
other by number. Every token has an owner, the innermost element it is part of.

* `ElementTree.build`: the forest of a list of tokens, which may be any list;
* `ElementTree.children`, `ElementTree.descendants`: walks along its links.
-/

namespace PugLint

/-- How an element is written. -/
inductive ElementKind where
  /-- With a tag name. -/
  | tag
  /-- By a class or an id alone, which stands for a `div`. -/
  | implicit
  /-- As the use of a mixin. -/
  | mixin
  deriving DecidableEq, Repr, Inhabited

/-- An element and its links. -/
structure Element where
  /-- The tag name, `div` when it is left out, or the name of the mixin. -/
  name : String
  /-- How the element is written. -/
  kind : ElementKind
  /-- The token that starts the element. -/
  token : Nat
  /-- The token of its tag name. -/
  tagToken : Option Nat
  /-- The tokens of its attributes. -/
  attributes : List Nat
  /-- The element that it is nested in. -/
  parent : Option Nat
  /-- The first element nested in it. -/
  firstChild : Option Nat
  /-- The last element nested in it. -/
  lastChild : Option Nat
  /-- The element in front of it with the same parent. -/
  previous : Option Nat
  /-- The element behind it with the same parent. -/
  next : Option Nat
  /-- How many elements it is nested in. -/
  depth : Nat
  /-- The token behind its last one. -/
  endToken : Nat
  deriving DecidableEq, Repr, Inhabited

/-- The elements of a template. -/
structure ElementTree where
  /-- The elements in the order of their first tokens. -/
  nodes : Array Element
  /-- The owner of each token. -/
  owners : Array (Option Nat)
  deriving Repr, Inhabited

namespace ElementTree

/-- The elements that are nested in no other. -/
def roots (tree : ElementTree) : List Nat :=
  (List.range tree.nodes.size).filter fun id => (tree.nodes[id]?.bind Element.parent).isNone

/-- An element and those linked behind it, at most as many as `fuel` allows. -/
def siblingsFrom (tree : ElementTree) : Nat → Option Nat → List Nat
  | _, none => []
  | 0, some _ => []
  | fuel + 1, some id => id :: siblingsFrom tree fuel (tree.nodes[id]?.bind Element.next)

/-- The elements nested directly in an element. -/
def children (tree : ElementTree) (id : Nat) : List Nat :=
  siblingsFrom tree tree.nodes.size (tree.nodes[id]?.bind Element.firstChild)

/-- The listed elements and all those nested in them, parents in front of their
    children, at most as many as `fuel` allows. -/
def preorder (tree : ElementTree) : Nat → List Nat → List Nat
  | _, [] => []
  | 0, _ => []
  | fuel + 1, id :: pending => id :: preorder tree fuel (tree.children id ++ pending)

/-- All elements nested in an element, in the order of the text. -/
def descendants (tree : ElementTree) (id : Nat) : List Nat :=
  preorder tree tree.nodes.size (tree.children id)

/-- The innermost element that a token is part of. -/
def owner? (tree : ElementTree) (token : Nat) : Option Nat :=
  (tree.owners[token]?).join

/-- The element that a token starts, among those from number `first` on and in
    front of `last`, which are in the order of their first tokens. Each turn
    leaves out one half of them. -/
def searchBetween (tree : ElementTree) (token first last : Nat) : Option Nat :=
  if first < last then
    let middle := (first + last) / 2
    match tree.nodes[middle]? with
    | none => none
    | some element =>
      if element.token < token then tree.searchBetween token (middle + 1) last
      else if token < element.token then tree.searchBetween token first middle
      else some middle
  else none
termination_by last - first

/-- The element that a token starts. -/
def elementAt? (tree : ElementTree) (token : Nat) : Option Nat :=
  tree.searchBetween token 0 tree.nodes.size

/-! ### Building -/

/-- The forest under construction. -/
structure Builder where
  /-- The elements so far. -/
  nodes : Array Element
  /-- The owners of the tokens so far. -/
  owners : Array (Option Nat)
  /-- The open elements, innermost first, each with the level of its line. -/
  stack : List (Nat × Nat)
  /-- The level of the line that is being read. -/
  level : Nat
  /-- The element whose head is on the line that is being read. -/
  current : Option Nat
  /-- Whether nothing of the line has been read. -/
  lineStart : Bool
  /-- Whether the last token was a colon. -/
  afterColon : Bool
  /-- Whether the tokens are those of a block of raw text. -/
  inRawText : Bool

namespace Builder

/-- The builder before the first token. -/
def start : Builder :=
  ⟨#[], #[], [], 0, none, true, false, false⟩

/-- The innermost open element. -/
def innermost (b : Builder) : Option Nat :=
  b.stack.head?.map Prod.fst

/-- The owner of a token on the line that is being read. -/
def currentOwner (b : Builder) : Option Nat :=
  b.current.or b.innermost

/-- Gives the token at hand its owner. -/
def own (b : Builder) (owner : Option Nat) : Builder :=
  { b with owners := b.owners.push owner }

/-- Closes, at a token, the open elements whose lines are at `level` or deeper. -/
def closeFrom (nodes : Array Element) (level token : Nat) :
    List (Nat × Nat) → Array Element × List (Nat × Nat)
  | [] => (nodes, [])
  | (id, start) :: stack =>
    if start < level then (nodes, (id, start) :: stack)
    else closeFrom (nodes.modify id ({ · with endToken := token })) level token stack

/-- Closes, at a token, the open elements whose lines are at `level` or deeper. -/
def closeTo (b : Builder) (level token : Nat) : Builder :=
  let (nodes, stack) := closeFrom b.nodes level token b.stack
  { b with nodes, stack }

/-- Starts a line at a token that the innermost open element owns. -/
def newLine (b : Builder) : Builder :=
  ({ b with current := none, lineStart := true, afterColon := false }).own b.innermost

/-- The last element without a parent. -/
def lastRoot? (nodes : Array Element) : Option Nat :=
  ((List.range nodes.size).filter fun id => (nodes[id]?.bind Element.parent).isNone).getLast?

/-- Opens an element at a token. -/
def openElement (b : Builder) (token : Nat) (name : String) (kind : ElementKind)
    (tagToken : Option Nat) : Builder :=
  -- Behind a colon, the parent is the element in front of it on the line.
  let parent := if b.afterColon then b.currentOwner else b.innermost
  let id := b.nodes.size
  let previous :=
    match parent with
    | some p => b.nodes[p]?.bind Element.lastChild
    | none => lastRoot? b.nodes
  let depth :=
    match parent with
    | some p => (b.nodes[p]?.map Element.depth).getD 0 + 1
    | none => 0
  let element : Element :=
    { name, kind, token, tagToken, attributes := [], parent, firstChild := none
      lastChild := none, previous, next := none, depth, endToken := token + 1 }
  let nodes := b.nodes.push element
  let nodes :=
    match previous with
    | some p => nodes.modify p ({ · with next := some id })
    | none => nodes
  let nodes :=
    match parent with
    | some p =>
      nodes.modify p fun node =>
        { node with
          firstChild := if previous.isNone then some id else node.firstChild
          lastChild := some id }
    | none => nodes
  ({ b with
    nodes
    stack := (id, b.level) :: b.stack
    current := some id
    lineStart := false
    afterColon := false }).own (some id)

/-- The forest after the token with number `i`. -/
def step (b : Builder) (i : Nat) (kind : TokenKind) : Builder :=
  match kind with
  | .newline =>
    if b.inRawText then b.own b.currentOwner else (b.closeTo b.level i).newLine
  | .indent _ => ({ b with level := b.level + 1 }).newLine
  | .outdent => (({ b with level := b.level - 1 }).closeTo (b.level - 1) i).newLine
  | .eos => (b.closeTo 0 i).own none
  | .tag name => b.openElement i name .tag (some i)
  | .call name => b.openElement i name .mixin none
  | .classLiteral _ | .idLiteral _ =>
    if b.lineStart || b.afterColon then b.openElement i "div" .implicit none
    else ({ b with lineStart := false }).own b.currentOwner
  | .colon => ({ b with afterColon := true }).own b.currentOwner
  | .startRawText => ({ b with inRawText := true }).own b.currentOwner
  | .endRawText => ({ b with inRawText := false }).own b.currentOwner
  | .attribute _ _ _ =>
    let nodes :=
      match b.current with
      | some id => b.nodes.modify id fun node => { node with attributes := node.attributes ++ [i] }
      | none => b.nodes
    ({ b with nodes }).own b.currentOwner
  | _ => ({ b with lineStart := false }).own b.currentOwner

/-- The forest after the tokens from number `i` on. -/
def run (b : Builder) (i : Nat) : List TokenKind → Builder
  | [] => b.closeTo 0 i
  | kind :: kinds => run (b.step i kind) (i + 1) kinds

end Builder

/-- The forest of a list of tokens. -/
def ofKinds (kinds : List TokenKind) : ElementTree :=
  let b := Builder.start.run 0 kinds
  ⟨b.nodes, b.owners⟩

/-- The forest of a list of placed tokens. -/
def build (tokens : List PlacedToken) : ElementTree :=
  ofKinds (tokens.map PlacedToken.kind)

end ElementTree

end PugLint
