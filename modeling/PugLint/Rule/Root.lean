import PugLint.Rule

/-!
# Rules for the root of a template

The root of a template is an element, neither a `template` nor a `slot`, and
not repeated; a template block has content unless it is loaded from a file.
-/

namespace PugLint.Rule

/-- The message for an element of a given name at the root. -/
def rootMessage? (name : String) : Option String :=
  if name == "template" then some "disallowTemplate"
  else if name == "slot" then some "disallowSlot"
  else none

/-- Roots are elements that appear once. -/
def singleRoot : Rule where
  info :=
    { name := "vue/no-multiple-template-root"
      description := "Disallow adding multiple root nodes to the template"
      category := .essential
      fixable := false
      severity := .error
      messages :=
        [("disallowTemplate", "The template root disallows 'template' elements."),
         ("disallowSlot", "The template root disallows 'slot' elements."),
         ("requireElement", "The template root requires an element rather than texts."),
         ("disallowVFor", "The template root disallows 'v-for' directives.")] }
  check :=
    both
      (atElements fun _ token element =>
        if element.parent.isNone && element.kind == .tag then
          (rootMessage? element.name).toList.map fun messageId =>
            .over messageId [] (token.start, token.stop)
        else [])
      (both
        (atDirective "for" fun view token _ _ =>
          if view.owner?.any (·.parent.isNone) then [.over "disallowVFor" [] token.nameRange]
          else [])
        (atText fun view token text =>
          if view.ownerId?.isSome || (Text.trim text.toList).isEmpty then []
          else [.over "requireElement" [] (token.start, token.stop)]))

/-- A template block has content, unless it is loaded from a file. A bare
    template has no tags around it and is not checked. -/
def validRoot : Rule where
  info :=
    { name := "vue/valid-template-root"
      description := "Enforce valid template root"
      category := .essential
      fixable := false
      severity := .error
      messages :=
        [("requireChild", "The template requires child element."),
         ("srcRequiresEmpty", "The template root with 'src' attribute is required to be empty.")] }
  check
    | .block, view =>
      let block := view.document.template
      if block.startTag.1 == block.startTag.2 then []
      else
        match block.hasSource, block.hasContent with
        | false, false => [.over "requireChild" [] (block.startTag.1, block.endTag.2)]
        | true, true => [.over "srcRequiresEmpty" [] (block.startTag.2, block.endTag.1)]
        | _, _ => []
    | _, _ => []

end PugLint.Rule
