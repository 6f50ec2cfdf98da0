import InlineVariants.Command.Arguments
import InlineVariants.Command.FileTree
import InlineVariants.Command.Json
import InlineVariants.Command.Log
import InlineVariants.Command.Run
import InlineVariants.Diagnostic
import InlineVariants.Edit
import InlineVariants.ErrorType
import InlineVariants.Expansion.Basic
import InlineVariants.Expansion.Enum
import InlineVariants.Expansion.Item
import InlineVariants.Function
import InlineVariants.Layout.Gap
import InlineVariants.Layout.Print
import InlineVariants.Layout.Spacing
import InlineVariants.Layout.Words
import InlineVariants.Lexeme.Basic
import InlineVariants.Lexeme.Comment
import InlineVariants.Lexeme.Literal
import InlineVariants.Lexeme.Scan
import InlineVariants.Main
import InlineVariants.Marker
import InlineVariants.Options
import InlineVariants.Proofs.Chunks
import InlineVariants.Proofs.Copying
import InlineVariants.Proofs.Lookahead
import InlineVariants.Proofs.Mirroring
import InlineVariants.Proofs.Moving
import InlineVariants.Proofs.Pairing
import InlineVariants.Proofs.Reading
import InlineVariants.Proofs.Recognising
import InlineVariants.Proofs.Relexing
import InlineVariants.Proofs.Rewriting
import InlineVariants.Proofs.RoundTrip
import InlineVariants.Proofs.Skipping
import InlineVariants.Proofs.Splitting
import InlineVariants.Proofs.Walking
import InlineVariants.Proofs.Weaving
import InlineVariants.Span
import InlineVariants.Text.Alphanumeric
import InlineVariants.Text.Blank
import InlineVariants.Text.CodeRanges
import InlineVariants.Text.DecimalDigit
import InlineVariants.Text.Position
import InlineVariants.Text.Printable
import InlineVariants.Text.Quoted
import InlineVariants.Text.Slice
import InlineVariants.Text.Utf8
import InlineVariants.Token.Build
import InlineVariants.Token.Keyword
import InlineVariants.Token.Path
import InlineVariants.Token.Tree
import InlineVariants.TypeExpr.Basic
import InlineVariants.TypeExpr.Parser
import InlineVariants.Variant.Basic
import InlineVariants.Variant.Cursor
import InlineVariants.Variant.Parser
import InlineVariants.Variant.Projection
import InlineVariants.Variant.Runs
import InlineVariants.Proofs.Locating
import InlineVariants.Proofs.Nesting
import InlineVariants.Proofs.Accounting
import InlineVariants.Proofs.Descending
import InlineVariants.Proofs.SpacedForm
import InlineVariants.Proofs.TypeExtent
import InlineVariants.Proofs.Restoring
import InlineVariants.Proofs.Scanning
import InlineVariants.Proofs.Untagging
import InlineVariants.Proofs.Overlapping
import InlineVariants.Proofs.Tags
import InlineVariants.Proofs.Rejoining
import InlineVariants.Proofs.Emerging
import InlineVariants.Proofs.Repeating
import InlineVariants.Proofs.Ordering
import InlineVariants.Proofs.Blaming
import InlineVariants.Proofs.Cutting
import InlineVariants.Proofs.Recovering
import InlineVariants.Proofs.Outlining
import InlineVariants.Proofs.Committing
import InlineVariants.Proofs.Quoting
import InlineVariants.Proofs.Rewalking
import InlineVariants.Proofs.Respelling
import InlineVariants.Proofs.Resolving
import InlineVariants.Proofs.Splicing
import InlineVariants.Proofs.OptionGrammar
import InlineVariants.Proofs.Retyping
import InlineVariants.Proofs.Gluing
import InlineVariants.Proofs.Regluing
import InlineVariants.Proofs.BlankSpacing
import InlineVariants.Proofs.Folding
import InlineVariants.Proofs.Joining
import InlineVariants.Proofs.Growing
import InlineVariants.Proofs.Retelling
import InlineVariants.Proofs.Declaring
