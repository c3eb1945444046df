import HostedLisp.Main
import HostedLisp.Host.Sample
import HostedLisp.Host.Table
import HostedLisp.Primitive.Sample
import HostedLisp.Proofs.Source.Derivation
import HostedLisp.Proofs.Source.Stream
import HostedLisp.Proofs.Source.Language
import HostedLisp.Proofs.Source.Recognition
import HostedLisp.Proofs.Source.Acceptance
import HostedLisp.Proofs.Source.Lexeme
import HostedLisp.Proofs.Source.FirstFault
import HostedLisp.Proofs.Number.Digits
import HostedLisp.Proofs.Number.Spelling
import HostedLisp.Proofs.Number.Rounding
import HostedLisp.Proofs.Number.Reading
import HostedLisp.Proofs.Source.RoundTrip
import HostedLisp.Proofs.Source.Segmentation
import HostedLisp.Proofs.Source.Expression
import HostedLisp.Proofs.Evaluation.Restoration
import HostedLisp.Proofs.Evaluation.Chains
import HostedLisp.Proofs.Evaluation.Refinement
import HostedLisp.Proofs.Evaluation.Equivalence
import HostedLisp.Proofs.Evaluation.Backtrace
import HostedLisp.Proofs.Evaluation.Fuel
import HostedLisp.Proofs.Evaluation.Termination
import HostedLisp.Proofs.Value.Renaming
import HostedLisp.Proofs.Value.Placement
import HostedLisp.Proofs.Value.Formats
import HostedLisp.Proofs.Value.PlainData
import HostedLisp.Proofs.Evaluation.Drift
import HostedLisp.Proofs.Evaluation.Uniformity
import HostedLisp.Proofs.Primitive.Uniformity
import HostedLisp.Proofs.Script.Independence
import HostedLisp.Proofs.Host.Uniformity
import HostedLisp.Proofs.Evaluation.PrintedData
import HostedLisp.Proofs.Evaluation.Taxonomy
import HostedLisp.Proofs.Script.Taxonomy
import HostedLisp.Proofs.Source.Concatenation
import HostedLisp.Proofs.Evaluation.Depth
import HostedLisp.Proofs.Evaluation.Positions
import HostedLisp.Proofs.Primitive.Positions
import HostedLisp.Proofs.Script.Concatenation
import HostedLisp.Proofs.Text.Lines
import HostedLisp.Proofs.Script.Excerpt
import HostedLisp.Proofs.Evaluation.Keeping
import HostedLisp.Proofs.Evaluation.Location
import HostedLisp.Proofs.Script.Location
import HostedLisp.Proofs.Primitive.Keeping
import HostedLisp.Proofs.Host.Privacy
import HostedLisp.Proofs.Value.Reading
import HostedLisp.Proofs.Console.Dialogue
import HostedLisp.Proofs.Source.Correspondence
import HostedLisp.Proofs.Source.Boundary
import HostedLisp.Proofs.Source.Joining
import HostedLisp.Proofs.Source.Sameness
import HostedLisp.Proofs.Source.Layout
import HostedLisp.Proofs.Source.Part
import HostedLisp.Proofs.Source.Extent
import HostedLisp.Proofs.Evaluation.Erasure
import HostedLisp.Proofs.Evaluation.Lockstep
import HostedLisp.Proofs.Evaluation.Diagnostics
import HostedLisp.Proofs.Primitive.Heedlessness
import HostedLisp.Proofs.Evaluation.Forcing
import HostedLisp.Proofs.Evaluation.Choosing
import HostedLisp.Proofs.Number.Magnitude
import HostedLisp.Proofs.Value.Equality
import HostedLisp.Proofs.Scope.Resolution
import HostedLisp.Proofs.Scope.Views
import HostedLisp.Proofs.Scope.Binding
import HostedLisp.Proofs.Source.Lookahead
import HostedLisp.Proofs.Number.Nearest
import HostedLisp.Proofs.Number.Rounded
import HostedLisp.Proofs.Source.Numeral
import HostedLisp.Proofs.Source.Literal
import HostedLisp.Proofs.Value.Numeral
import HostedLisp.Proofs.Host.Callability
import HostedLisp.Proofs.Evaluation.Entry
import HostedLisp.Proofs.Json.RoundTrip
import HostedLisp.Proofs.Script.Trace
import HostedLisp.Proofs.Text.Location
import HostedLisp.Proofs.Source.Progress
import HostedLisp.Proofs.Value.Entries
import HostedLisp.Proofs.Evaluation.Flattening
import HostedLisp.Proofs.Script.Abstention
