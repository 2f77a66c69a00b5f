import PugLint.Directive
import PugLint.Expression
import PugLint.Placement

/-!
# Conditional chains

Neighbouring elements with `v-if`, `v-else-if` and `v-else` form a chain. The
chains that are open are kept by the depth of their elements: an element
replaces the chain at its own depth and ends those at greater depths.

* `Conditional.after`: what an element makes of the chain in front of it;
* `Chains.enter`: the open chains after an element.
-/

namespace PugLint

/-- A chain that a further branch may continue. -/
structure Chain where
  /-- The token of the `v-if` that opens the chain. -/
  start : Nat
  /-- The conditions of the branches so far, as written. -/
  conditions : List String
  deriving DecidableEq, Repr, Inhabited

/-- The part of an element in a chain. -/
inductive Conditional where
  /-- A `v-if` at a token. -/
  | opens (token : Nat) (condition : String)
  /-- A `v-else-if`. -/
  | continues (condition : String)
  /-- A `v-else`. -/
  | concludes
  /-- None of them. -/
  | plain
  deriving DecidableEq, Repr, Inhabited

namespace Conditional

/-- The condition in the value of an attribute. -/
def conditionOf (value : Option String) : String :=
  String.ofList (Text.trim ((value.map Expression.unquote).getD "").toList)

/-- The part of an element with the given attributes, each with the number of
    its token; `found` is what the attributes in front of them make of it. A
    `v-if` goes before a `v-else-if`, and that before a `v-else`. -/
def ofAttributesFrom (found : Conditional) : List (Nat × String × Option String) → Conditional
  | [] => found
  | (token, name, value) :: others =>
    match (Directive.parse? name).map Directive.name, found with
    -- Nothing outranks a `v-if`, so the search ends.
    | some "if", _ => .opens token (conditionOf value)
    | some "else-if", .continues _ => ofAttributesFrom found others
    | some "else-if", _ => ofAttributesFrom (.continues (conditionOf value)) others
    | some "else", .plain => ofAttributesFrom .concludes others
    | _, _ => ofAttributesFrom found others

/-- The part of an element whose attributes are the given tokens. -/
def ofTokens (tokens : Array PlacedToken) (attributes : List Nat) : Conditional :=
  ofAttributesFrom .plain <| attributes.filterMap fun i =>
    (tokens[i]?.bind PlacedToken.attribute?).map fun (name, value) => (i, name, value)

/-- What an element makes of the chain in front of it. -/
def after : Conditional → Option Chain → Option Chain
  | opens token condition, _ => some ⟨token, [condition]⟩
  | continues condition, before =>
    before.map fun chain => { chain with conditions := chain.conditions ++ [condition] }
  | concludes, before => before
  | plain, _ => none

end Conditional

/-- The open chains by depth. -/
structure Chains where
  /-- The chain at each depth. -/
  entries : List (Option Chain)
  deriving DecidableEq, Repr, Inhabited

namespace Chains

/-- No open chain. -/
def empty : Chains := ⟨[]⟩

/-- The open chain at a depth. -/
def entry? (chains : Chains) (depth : Nat) : Option Chain :=
  (chains.entries[depth]?).join

/-- Whether a chain is open at a depth. -/
def isLive (chains : Chains) (depth : Nat) : Bool :=
  (chains.entry? depth).isSome

/-- Whether a condition has been met in the chain at a depth. -/
def hasCondition (chains : Chains) (depth : Nat) (condition : String) : Bool :=
  (chains.entry? depth).any (·.conditions.contains condition)

/-- The open chains after an element at a depth. -/
def enter (chains : Chains) (depth : Nat) (conditional : Conditional) : Chains :=
  let shallower := chains.entries.take depth
  ⟨shallower ++ List.replicate (depth - shallower.length) none ++
    [conditional.after (chains.entry? depth)]⟩

end Chains

end PugLint
