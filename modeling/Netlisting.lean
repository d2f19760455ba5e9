import Netlisting.Text.Blank
import Netlisting.Text.Casing
import Netlisting.Text.Quoted
import Netlisting.NameSet
import Netlisting.Table
import Netlisting.Decimal.Basic
import Netlisting.Decimal.Reading
import Netlisting.Decimal.Printing
import Netlisting.Expr.Basic
import Netlisting.Expr.Parser
import Netlisting.Binary64.Basic
import Netlisting.Binary64.Rounding
import Netlisting.Binary64.Printing
import Netlisting.Binary64.Reading
import Netlisting.Document.Basic
import Netlisting.Directive.Sweep
import Netlisting.Design.Reference
import Netlisting.Design.Path
import Netlisting.Design.Device
import Netlisting.Design.Schematic
import Netlisting.Design.Cell
import Netlisting.Sorting
import Netlisting.Library.Namespace
import Netlisting.Library.Store
import Netlisting.Library.Resolver
import Netlisting.Net.Classes
import Netlisting.Netlist.Directory
import Netlisting.Netlist.Basic
import Netlisting.Flattening.Error
import Netlisting.Flattening.Params
import Netlisting.Flattening.Level
import Netlisting.Flattening.Frame
import Netlisting.Flattening.Basic
import Netlisting.Flattening.Compiler
import Netlisting.Netlist.Include
import Netlisting.Netlist.Deck
import Netlisting.Directive.Basic
import Netlisting.Directive.VectorMap
import Netlisting.Directive.Rendering
import Netlisting.Stream.Record
import Netlisting.Stream.Reordering
import Netlisting.Stream.Intake
import Netlisting.Stream.History
import Netlisting.Stream.Settings
import Netlisting.Stream.State
import Netlisting.Stream.Message
import Netlisting.Stream.Session
import Netlisting.Stream.Client
import Netlisting.Toml.Scalar
import Netlisting.Toml.Tree
import Netlisting.Toml.Text
import Netlisting.Toml.Reader
import Netlisting.Design.Reading
import Netlisting.Project.Basic
import Netlisting.Project.Compiled
import Netlisting.Cli.Arguments
import Netlisting.Cli.Report
import Netlisting.Cli.Run
import Netlisting.Cli.Folder
import Netlisting.Main
import Netlisting.Power
import Netlisting.Proofs.Decimal.Numeric
import Netlisting.Proofs.Decimal.Printing
import Netlisting.Proofs.Decimal.Rounding
import Netlisting.Proofs.Text.Joining
import Netlisting.Proofs.Expr.Numbers
import Netlisting.Proofs.Expr.Tokens
import Netlisting.Proofs.Expr.Grammar
import Netlisting.Proofs.Expr.Rendering
import Netlisting.Proofs.Expr.Meaning
import Netlisting.Proofs.Expr.Instantiation
import Netlisting.Proofs.Design.Path
import Netlisting.Proofs.Library.Answers
import Netlisting.Proofs.Net.Classes
import Netlisting.Proofs.Netlist.Directory
import Netlisting.Proofs.Flattening.Parameters
import Netlisting.Proofs.Flattening.Hierarchy
import Netlisting.Proofs.Flattening.StackWalk
import Netlisting.Proofs.Flattening.Expansion
import Netlisting.Proofs.Flattening.Faults
import Netlisting.Proofs.Flattening.Depth
import Netlisting.Proofs.Flattening.Nodes
import Netlisting.Proofs.Flattening.Slots
import Netlisting.Proofs.Flattening.Recursion
import Netlisting.Proofs.Flattening.Wiring
import Netlisting.Proofs.Flattening.Connectivity
import Netlisting.Proofs.Flattening.Naming
import Netlisting.Proofs.Netlist.Lint
import Netlisting.Proofs.Flattening.Assignment
import Netlisting.Proofs.Flattening.Instantiation
import Netlisting.Proofs.Library.Reachable
import Netlisting.Proofs.Library.Indexes
import Netlisting.Proofs.Library.Stability
import Netlisting.Proofs.Library.Freshness
import Netlisting.Proofs.Flattening.Inquiry
import Netlisting.Proofs.Flattening.Repetition
import Netlisting.Proofs.Flattening.Memory
import Netlisting.Proofs.Flattening.Steps
import Netlisting.Proofs.Flattening.FreeWalk
import Netlisting.Proofs.Flattening.Cycles
import Netlisting.Proofs.Flattening.Likeness
import Netlisting.Proofs.Flattening.Reply
import Netlisting.Proofs.Flattening.Mirror
import Netlisting.Proofs.Flattening.Composition
import Netlisting.Proofs.Project.Compiled
import Netlisting.Proofs.Netlist.SourceMap
import Netlisting.Proofs.Netlist.Lookup
import Netlisting.Proofs.Directive.Statements
import Netlisting.Proofs.Directive.Vectors
import Netlisting.Proofs.Directive.Sweep
import Netlisting.Proofs.Directive.Blocks
import Netlisting.Proofs.Stream.Record
import Netlisting.Proofs.Stream.Reordering
import Netlisting.Proofs.Stream.Intake
import Netlisting.Proofs.Stream.Receiver
import Netlisting.Proofs.Stream.Delivery
import Netlisting.Proofs.Stream.Ordering
import Netlisting.Proofs.Stream.Separation
import Netlisting.Proofs.Stream.Depth
import Netlisting.Proofs.Stream.History
import Netlisting.Proofs.Stream.Timeline
import Netlisting.Proofs.Stream.Ledger
import Netlisting.Proofs.Stream.Moves
import Netlisting.Proofs.Stream.Progress
import Netlisting.Proofs.Stream.FlowControl
import Netlisting.Proofs.Stream.Cancellation
import Netlisting.Proofs.Stream.Conversation
import Netlisting.Proofs.Library.Statistics
import Netlisting.Proofs.Library.Newest
import Netlisting.Proofs.Library.Namespace
import Netlisting.Proofs.Flattening.ByReference
import Netlisting.Proofs.Flattening.Unconnected
import Netlisting.Proofs.Stream.Relabeling
import Netlisting.Proofs.Expr.Scoping
import Netlisting.Proofs.Flattening.Origin
import Netlisting.Proofs.Text.Words
import Netlisting.Proofs.Netlist.Statements
import Netlisting.Proofs.Decimal.Fitting
import Netlisting.Proofs.Decimal.Exactness
import Netlisting.Proofs.Expr.Literals
import Netlisting.Proofs.Text.Casing
import Netlisting.Proofs.Directive.Lookup
import Netlisting.Proofs.Directive.Faults
import Netlisting.Proofs.Directive.Concatenation
import Netlisting.Proofs.Directive.Commands
import Netlisting.Proofs.Directive.Requests
import Netlisting.Proofs.Flattening.Connecting
import Netlisting.Proofs.Flattening.Provenance
import Netlisting.Proofs.Flattening.Surface
import Netlisting.Proofs.Directive.Names
import Netlisting.Proofs.Directive.Defaults
import Netlisting.Proofs.Net.Representatives
import Netlisting.Proofs.Expr.Residues
import Netlisting.Proofs.Flattening.QualifiedNames
