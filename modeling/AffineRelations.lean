import AffineRelations.Word.Flat
import AffineRelations.Word.Diagonal
import AffineRelations.GeneratorSet
import AffineRelations.Expr.Parse
import AffineRelations.Transition
import AffineRelations.FlowGraph
import AffineRelations.Analysis.Run
import AffineRelations.Analysis.Trace
import AffineRelations.Document.Yaml
import AffineRelations.Settings.Toml
import AffineRelations.Report
import AffineRelations.Command.Run
import AffineRelations.Main
import AffineRelations.Proofs.GeneratorSet.Span
import AffineRelations.Proofs.Diagonal.Form
import AffineRelations.Proofs.Analysis.Exactness
import AffineRelations.Proofs.Analysis.Termination
import AffineRelations.Proofs.Analysis.History
import AffineRelations.Proofs.Diagonal.Canonical
import AffineRelations.Proofs.Expr.Numeral
import AffineRelations.Proofs.Expr.Reading
import AffineRelations.Proofs.Expr.Scanning
import AffineRelations.Proofs.Expr.RoundTrip
import AffineRelations.Proofs.Expr.Grammar
import AffineRelations.Proofs.Diagonal.RowSpan
import AffineRelations.Proofs.Analysis.Anchor
import AffineRelations.Proofs.Analysis.Widths
import AffineRelations.Proofs.FlowGraph.Coherence
import AffineRelations.Proofs.GeneratorSet.Membership
import AffineRelations.Proofs.GeneratorSet.Leads
import AffineRelations.Proofs.GeneratorSet.Progress
import AffineRelations.Proofs.Transition.WordStates
import AffineRelations.Proofs.GeneratorSet.Memory
import AffineRelations.Proofs.GeneratorSet.SortedVectors
import AffineRelations.Proofs.GeneratorSet.ArbitraryWords
import AffineRelations.Proofs.Transition.AffineSums
import AffineRelations.Proofs.Expr.Arithmetic
import AffineRelations.Proofs.Diagonal.Determinant
import AffineRelations.Proofs.FlowGraph.Atomicity
import AffineRelations.Proofs.FlowGraph.Tables
import AffineRelations.Proofs.Analysis.Events
import AffineRelations.Proofs.Word.Composition
import AffineRelations.Proofs.Word.Inverse
import AffineRelations.Proofs.Word.Signed
import AffineRelations.Proofs.Document.Building
import AffineRelations.Proofs.Settings.Merging
