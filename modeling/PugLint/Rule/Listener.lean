import PugLint.Message
import PugLint.Rule

/-!
# Rules for listeners

A `v-on` has something to do and modifiers that mean something; listeners of one
element that differ in their system modifiers say exactly when they answer.
-/

namespace PugLint.Rule

/-- The modifiers that make a handler optional. -/
def verbModifiers : List String := ["stop", "prevent"]

/-- The modifiers of events. -/
def eventModifiers : List String :=
  ["stop", "prevent", "capture", "self", "ctrl", "shift", "alt", "meta", "native", "once",
   "left", "right", "middle", "passive", "exact"]

/-- The modifiers that name keys. -/
def keyModifiers : List String :=
  ["esc", "escape", "tab", "enter", "space", "up", "down", "left", "right", "delete",
   "backspace", "insert", "home", "end", "page-up", "page-down", "arrow-up", "arrow-down",
   "arrow-left", "arrow-right", "caps-lock", "num-lock", "scroll-lock", "context-menu",
   "f1", "f2", "f3", "f4", "f5", "f6", "f7", "f8", "f9", "f10", "f11", "f12"]

/-- Whether a modifier is a key code or a single letter or digit. -/
def isKeyModifier (modifier : String) : Bool :=
  match modifier.toList with
  | [] => false
  | [c] => c.isAlphanum
  | cs => cs.all Char.isDigit

/-- Whether a modifier is known; `extra` are further ones to accept. -/
def isKnownModifier (extra : List String) (modifier : String) : Bool :=
  eventModifiers.contains modifier || keyModifiers.contains modifier ||
    extra.contains modifier || isKeyModifier modifier

/-- A listener has a handler or a verb modifier, its handler is no reserved word,
    and its modifiers are known ones or among `extra`. -/
def validOn (extra : List String) : Rule where
  info :=
    { name := "vue/valid-v-on"
      description := "Enforce valid `v-on` directives"
      category := .essential
      fixable := false
      severity := .error
      messages :=
        [("unsupportedModifier", "'v-on' directives don't support the modifier '" ++ Message.slot "modifier" ++ "'."),
         ("avoidKeyword", "Avoid using JavaScript keyword as \"v-on\" value: " ++ Message.slot "value" ++ "."),
         ("expectedValueOrVerb", "'v-on' directives require a value or verb modifier (like 'stop' or 'prevent').")] }
  options := .object [("modifiers", .ofStrings extra)]
  check := atDirective "on" fun _ token directive value =>
    let handler := Conditional.conditionOf value
    if Expression.isEmptyValue value && !directive.modifiers.any verbModifiers.contains then
      [.over "expectedValueOrVerb" [] token.nameRange]
    else if directive.argument.isSome && Markup.isReservedWord handler then
      [.over "avoidKeyword" [("value", "\"" ++ handler ++ "\"")] token.nameRange]
    else
      (directive.modifiers.filter (!isKnownModifier extra ·)).map fun modifier =>
        .over "unsupportedModifier" [("modifier", modifier)] token.nameRange

/-- The modifiers for keys that are held down. -/
def systemModifiers : List String := ["ctrl", "shift", "alt", "meta"]

/-- The modifiers that have nothing to do with keys. -/
def globalModifiers : List String :=
  ["stop", "prevent", "capture", "self", "once", "passive", "native"]

/-- A listener of an element. -/
structure Listener where
  /-- The number of its token. -/
  token : Nat
  /-- The name of the event. -/
  event : String
  /-- Its modifiers; a listener without any has one empty entry. -/
  modifiers : List String
  deriving DecidableEq, Repr, Inhabited

namespace Listener

/-- The text of a listener behind `v-on:` or `@`. -/
def unprefixed? (raw : List Char) : Option (List Char) :=
  match raw with
  | 'v' :: '-' :: 'o' :: 'n' :: ':' :: rest => some rest
  | '@' :: rest => some rest
  | _ => none

/-- The text behind a word and one character more that ends no line; the whole
    of `raw` if there is no word. -/
def modifierText (raw rest : List Char) : List Char :=
  match rest.takeWhile Text.isWordChar, rest.dropWhile Text.isWordChar with
  | [], _ => raw
  | _, c :: cs => if c == '\n' then c :: cs else cs
  | _, [] => []

/-- The listener that an attribute name stands for, if it does. -/
def parse? (token : Nat) (raw : String) : Option Listener :=
  (unprefixed? raw.toList).map fun rest =>
    { token
      event := String.ofList (rest.takeWhile (· != '.'))
      modifiers := (Directive.splitDots (modifierText raw.toList rest)).map String.ofList }

/-- Whether the listener answers to exactly its modifiers. -/
def isExact (listener : Listener) : Bool :=
  listener.modifiers.contains "exact"

/-- Whether the listener asks for a key that is held down. -/
def hasSystemModifier (listener : Listener) : Bool :=
  listener.modifiers.any systemModifiers.contains

/-- Some modifiers in alphabetical order, joined by commas. -/
def joined (listener : Listener) (keep : String → Bool) : String :=
  ",".intercalate ((listener.modifiers.filter keep).mergeSort fun a b => decide (a ≤ b))

/-- The modifiers for keys that are held down. -/
def systemText (listener : Listener) : String :=
  listener.joined systemModifiers.contains

/-- The modifiers that name the key or button. -/
def keyText (listener : Listener) : String :=
  listener.joined fun modifier =>
    !systemModifiers.contains modifier && !globalModifiers.contains modifier

/-- Whether `base` goes further than another listener that would answer as
    well. The texts of their system modifiers are compared, not sets of them. -/
def conflicts (base other : Listener) : Bool :=
  let keysAgree := other.keyText == "" || base.keyText == "" || other.keyText == base.keyText
  base.token != other.token && !other.isExact && keysAgree &&
    base.systemText != other.systemText &&
    (Text.splitBefore? other.systemText.toList base.systemText.toList).isSome

/-- The listeners among others of one element that should be exact. -/
def inexact (listeners : List Listener) : List Listener :=
  listeners.filter fun base =>
    let group := listeners.filter (·.event == base.event)
    !base.isExact && group.any hasSystemModifier && group.any (base.conflicts ·)

end Listener

/-- The listeners of a list of attributes; of a component, only those on its
    root element. -/
def listeners (view : View) (isComponent : Bool) : List Listener :=
  view.trackers.scope.filterMap fun i =>
    match (view.token? i).bind PlacedToken.attribute? with
    | some (raw, _) =>
      if isComponent && (Text.splitBefore? ".native".toList raw.toList).isNone then none
      else Listener.parse? i raw
    | none => none

/-- Listeners that differ in system modifiers are exact. -/
def requireExact : Rule where
  info :=
    { name := "vue/use-v-on-exact"
      description := "Enforce usage of `exact` modifier on `v-on`"
      category := .essential
      fixable := false
      severity := .error
      messages := [("considerExact", "Consider to use '.exact' modifier.")] }
  check
    | .exitAttributes, view =>
      match view.owner? with
      | some element =>
        let found := Listener.inexact (listeners view (view.isCustomComponent element))
        (found.filterMap fun listener => view.token? listener.token).map fun token =>
          .over "considerExact" [] token.nameRange
      | none => []
    | _, _ => []

end PugLint.Rule
