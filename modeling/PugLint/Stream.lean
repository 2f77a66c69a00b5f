import PugLint.Component
import PugLint.Element
import PugLint.Token.Lexer

/-!
# Token streams

The placed tokens of a template block together with its elements. A template
that cannot be read gives an empty stream that is marked as failed.
-/

namespace PugLint

/-- The tokens and elements of a template block. -/
structure TokenStream where
  /-- The tokens with their places in the document. -/
  tokens : Array PlacedToken
  /-- The elements. -/
  tree : ElementTree
  /-- Whether the template could not be read. -/
  failed : Bool
  deriving Repr, Inhabited

/-- The stream of a template block. -/
def TokenStream.ofBlock (block : TemplateBlock) : TokenStream :=
  match tokenize block.content with
  | .ok tokens =>
    let placed := placeTokens tokens block.content.toList block.offset block.line
    ⟨placed.toArray, ElementTree.build placed, false⟩
  | .error _ => ⟨#[], ⟨#[], #[]⟩, true⟩

end PugLint
