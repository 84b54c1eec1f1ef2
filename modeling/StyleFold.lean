import StyleFold.Files.Directory
import StyleFold.Main
import StyleFold.Proofs.Lookahead.Reader
import StyleFold.Proofs.Lookahead.Windows
import StyleFold.Proofs.Lookahead.Modes
import StyleFold.Proofs.Lookahead.Agreement
import StyleFold.Proofs.Merge.Classes
import StyleFold.Proofs.Merge.Tally
import StyleFold.Proofs.Merge.Verified
import StyleFold.Proofs.Lookahead.Legible
import StyleFold.Proofs.Merge.Facts
import StyleFold.Proofs.Print.Passive
import StyleFold.Proofs.Print.Reread
import StyleFold.Proofs.Print.RoundTrip
import StyleFold.Proofs.Print.Printable
import StyleFold.Proofs.Text.Order
import StyleFold.Proofs.Merge.Progress
import StyleFold.Proofs.Merge.SourceOrder
import StyleFold.Proofs.Print.Recompile
import StyleFold.Proofs.Merge.Lineage
import StyleFold.Proofs.Merge.Partition
import StyleFold.Proofs.Print.Size
import StyleFold.Proofs.Merge.Detection
import StyleFold.Proofs.Lookahead.Composition
import StyleFold.Proofs.Lookahead.LineBreaks
import StyleFold.Proofs.Lookahead.Opaque
import StyleFold.Proofs.Merge.Piecewise
import StyleFold.Proofs.Merge.Idempotent
import StyleFold.Proofs.Merge.DeclarationSets
import StyleFold.Proofs.Merge.Absorbed
import StyleFold.Proofs.Merge.Selectors
import StyleFold.Proofs.Lookahead.Failures
import StyleFold.Proofs.Lookahead.Landmarks
import StyleFold.Proofs.Lookahead.Locations
import StyleFold.Proofs.Text.Splitting
import StyleFold.Proofs.Scan.Stack
import StyleFold.Proofs.Scan.Pending
import StyleFold.Proofs.Tree.Traversal
