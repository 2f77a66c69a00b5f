import PugLint.Pattern.Name
import PugLint.Pattern.Reader

/-!
# An engine for regular expressions

Expressions are read and matched as described in `Pattern.Reader` and
`Pattern.Expr`.
-/

namespace PugLint.Pattern

/-- The flags that an expression starts with. -/
def Flags.ofOptions (options : RegexOptions) : Flags where
  caseless := options.caseInsensitive
  multiLine := options.multiLine
  dotAll := options.dotMatchesNewLine
  verbose := options.ignoreWhitespace

/-- Expressions are matched by the sets of places where matches end. -/
instance engine : RegexEngine where
  compile? options source :=
    (Expr.parse? (.ofOptions options) source.toList).map fun expr name => expr.isMatch name.toList

end PugLint.Pattern
