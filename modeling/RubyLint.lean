import RubyLint.Config.Load
import RubyLint.Proofs.Edit.Result
import RubyLint.Proofs.Layout.Negation
import RubyLint.Proofs.Layout.Nesting
import RubyLint.Proofs.Layout.Ternary
import RubyLint.Proofs.Literal.Misreading
import RubyLint.Proofs.Literal.Quoting
import RubyLint.Proofs.Literal.Regexp
import RubyLint.Proofs.Literal.Words
import RubyLint.Proofs.Pattern.Captures
import RubyLint.Proofs.Pattern.Hyphens
import RubyLint.Proofs.Pattern.Locality
import RubyLint.Proofs.Pattern.Named
import RubyLint.Proofs.Pattern.Scanning
import RubyLint.Proofs.Reading.Run
import RubyLint.Proofs.Rule.Accumulating
import RubyLint.Proofs.Rule.Comparing
import RubyLint.Proofs.Rule.Deletion
import RubyLint.Proofs.Rule.Dotted
import RubyLint.Proofs.Rule.Listing
import RubyLint.Proofs.Rule.Looping
import RubyLint.Proofs.Rule.Merging
import RubyLint.Proofs.Rule.Pushing
import RubyLint.Proofs.Rule.Sorting
import RubyLint.Proofs.Rule.Splitting
import RubyLint.Proofs.Rule.Standard
import RubyLint.Proofs.Rule.Unquoting
import RubyLint.Proofs.Run.Abandoning
import RubyLint.Proofs.Run.Correction
import RubyLint.Proofs.Run.Cycle
import RubyLint.Proofs.Run.Greedy
import RubyLint.Proofs.Run.Inspection
import RubyLint.Proofs.Run.Isolation
import RubyLint.Proofs.Run.Resume
import RubyLint.Proofs.Suppression.Range
import RubyLint.Proofs.Syntax.Laminar
import RubyLint.Proofs.Syntax.Literals
import RubyLint.Proofs.Syntax.Walk
import RubyLint.Proofs.Text.Position
import RubyLint.Run.Check
import RubyLint.Syntax.Invariants
