import PugLint.Cache
import PugLint.Casing
import PugLint.Chain
import PugLint.Component
import PugLint.Config
import PugLint.Config.Decode
import PugLint.Config.Settings
import PugLint.Diagnostic
import PugLint.Directive
import PugLint.Edit
import PugLint.Element
import PugLint.Expression
import PugLint.Json.Decimal
import PugLint.Json.Decode
import PugLint.Json.Reader
import PugLint.Json.Value
import PugLint.LineIndex
import PugLint.Linter
import PugLint.Markup
import PugLint.Message
import PugLint.Mustache
import PugLint.Output
import PugLint.Pattern
import PugLint.Pattern.CharSet
import PugLint.Pattern.Expr
import PugLint.Pattern.Name
import PugLint.Pattern.Property
import PugLint.Pattern.Reader
import PugLint.Placement
import PugLint.Proofs.LineIndex
import PugLint.Proofs.Token.Extent
import PugLint.Proofs.Token.Scanning
import PugLint.Registry
import PugLint.Report
import PugLint.Rule
import PugLint.Rule.Attributes
import PugLint.Rule.Condition
import PugLint.Rule.Deprecation
import PugLint.Rule.Iteration
import PugLint.Rule.Listener
import PugLint.Rule.Naming
import PugLint.Rule.Root
import PugLint.Rule.Usage
import PugLint.Script
import PugLint.Script.Grammar
import PugLint.Script.Grammar.Expressions
import PugLint.Script.Grammar.Functions
import PugLint.Script.Grammar.Markup
import PugLint.Script.Grammar.Modules
import PugLint.Script.Grammar.Statements
import PugLint.Script.Grammar.Types
import PugLint.Script.Lexeme
import PugLint.Script.Peg
import PugLint.Script.Scan
import PugLint.Script.Symbol
import PugLint.Script.Syntax
import PugLint.Session
import PugLint.Stream
import PugLint.Text.Blank
import PugLint.Text.Bytes
import PugLint.Text.CaseVariant
import PugLint.Text.Category
import PugLint.Text.Digest
import PugLint.Text.Letter
import PugLint.Text.LetterCase
import PugLint.Text.Search
import PugLint.Token
import PugLint.Token.Lexer
import PugLint.Token.Scanner
import PugLint.Tracker
import PugLint.Proofs.Token.Reading
import PugLint.Proofs.Placement
import PugLint.Proofs.Cache
import PugLint.Proofs.Component
import PugLint.Proofs.Linter.Caching
import PugLint.Proofs.Rule.Problems
import PugLint.Proofs.Session.Independence
import PugLint.Proofs.Linter.Independence
import PugLint.Proofs.Forest
import PugLint.Proofs.Forest.Attributes
import PugLint.Proofs.Forest.Heads
import PugLint.Proofs.Forest.Lines
import PugLint.Proofs.Element.Links
import PugLint.Proofs.Forest.Building
import PugLint.Proofs.Forest.RoundTrip
import PugLint.Proofs.Element.Descent
import PugLint.Proofs.Element.Order
import PugLint.Proofs.Element.Consistency
import PugLint.Proofs.Element.Intervals
import PugLint.Proofs.Token.Shape
import PugLint.Proofs.Tracker
import PugLint.Proofs.Token.Bracketing
import PugLint.Proofs.Chain
import PugLint.Proofs.Token.Moves
import PugLint.Proofs.Token.Paths
import PugLint.Proofs.Element.Following
import PugLint.Proofs.Element.Attributes
import PugLint.Proofs.Token.Outline
import PugLint.Proofs.Element.Indentation
import PugLint.Proofs.Element.Nesting
import PugLint.Proofs.Expression
import PugLint.Proofs.Rule.Findings
import PugLint.Proofs.Linter.Ranges
import PugLint.Proofs.Token.Attribute
import PugLint.Proofs.Token.Acceptance
import PugLint.Proofs.Token.Variation
import PugLint.Proofs.Token.Exchange
import PugLint.Proofs.Element.Titles
import PugLint.Proofs.Casing
import PugLint.Proofs.Linter.Fixes
import PugLint.Proofs.Token.LineEndings.Scanning
import PugLint.Proofs.Token.LineEndings
import PugLint.Proofs.Component.Printing
import PugLint.Proofs.Component.RoundTrip
import PugLint.Proofs.Directive
import PugLint.Proofs.Rule.Counterparts
import PugLint.Proofs.Rule.Correspondence
import PugLint.Proofs.Session.Correspondence
import PugLint.Proofs.Linter.Embedding
import PugLint.Proofs.Text.Category
import PugLint.Proofs.Token.Respelling
import PugLint.Proofs.Linter.Spelling
import PugLint.Proofs.Registry
import PugLint.Proofs.Linter.Hyphenation
import PugLint.Proofs.Token.Indenting
import PugLint.Proofs.Element.Indenting
import PugLint.Proofs.Token.Parting
import PugLint.Proofs.Element.Renumbering
import PugLint.Proofs.Rule.Renumbering
import PugLint.Proofs.Rule.Parting
import PugLint.Proofs.Session.Parting
import PugLint.Proofs.Casing.Components
import PugLint.Proofs.Casing.Conforming
import PugLint.Proofs.Component.Geometry
import PugLint.Proofs.Component.Reading
import PugLint.Proofs.Component.Closing
import PugLint.Proofs.Expression.Free
import PugLint.Proofs.Expression.Renaming
import PugLint.Proofs.Linter.Parting
import PugLint.Proofs.Linter.ScopedSlots
import PugLint.Proofs.Placement.Attributes
import PugLint.Proofs.Config
import PugLint.Proofs.Script
import PugLint.Proofs.Binding.Iteration
import PugLint.Proofs.Placement.Repair
import PugLint.Proofs.Token.Scanner.Template
import PugLint.Proofs.Text.Bytes
import PugLint.Proofs.Text.Search
import PugLint.Proofs.Edit
import PugLint.Proofs.Message
import PugLint.Proofs.LineIndex.Inverse
import PugLint.Proofs.Directive.Printing
