import Scl.Main
import Scl.Proofs.Expansion.Scoping
import Scl.Proofs.Expansion.Walk
import Scl.Scope.Request
import Scl.Proofs.Expansion.Simulation
import Scl.Proofs.Forest.Layout
import Scl.Proofs.Forest.Nearest
import Scl.Proofs.Line.Reading
import Scl.Proofs.Line.Levels
import Scl.Proofs.Expansion.Outcome
import Scl.Proofs.Expansion.Steps
import Scl.Proofs.Expansion.Guard
import Scl.Proofs.Expansion.Trace
import Scl.Proofs.Line.Source
import Scl.Proofs.Statement.Location
import Scl.Proofs.Output.RoundTrip
import Scl.Proofs.Expansion.Inclusion
import Scl.Proofs.File.Memory
import Scl.Proofs.Line.Splice
import Scl.Proofs.Expansion.Import
import Scl.Proofs.Line.Folding
import Scl.Proofs.Line.Serialise
import Scl.Proofs.Text.Comment
import Scl.Proofs.Text.Bytes
import Scl.Proofs.Template.Reading
import Scl.Proofs.Expansion.RawQuoting
import Scl.Proofs.Statement.Classification
import Scl.Proofs.Statement.Braces
import Scl.Proofs.Expansion.Braces
import Scl.Proofs.Expansion.Depth
import Scl.Proofs.Scope.History
import Scl.Proofs.Expansion.Termination
import Scl.Proofs.Documentation.Listing
import Scl.Proofs.Documentation.Registration
import Scl.Proofs.Output.Shape
import Scl.Proofs.Text.Nesting
import Scl.Proofs.Statement.Signature
import Scl.Proofs.Template.Grammar
import Scl.Proofs.Template.Substitution
import Scl.Proofs.Expansion.Enumeration
import Scl.Proofs.Expansion.Binding
import Scl.Proofs.Statement.Printing
import Scl.Proofs.Line.Style
import Scl.Proofs.Documentation.Coverage
import Scl.Proofs.Forest.Pruning
import Scl.Proofs.Expansion.Rewriting
import Scl.Proofs.Expansion.Comment
import Scl.Proofs.Text.Stripping
import Scl.Proofs.Statement.Parameters
import Scl.Proofs.Statement.Stream
import Scl.Proofs.Statement.Heredoc
