import SourceMetrics.Collection
import SourceMetrics.Command.Arguments
import SourceMetrics.Command.Run
import SourceMetrics.Command.World
import SourceMetrics.Complexity
import SourceMetrics.Decimal.Binary
import SourceMetrics.Decimal.Places
import SourceMetrics.Decimal.Shortest
import SourceMetrics.Declarations
import SourceMetrics.Delivery
import SourceMetrics.Duplication
import SourceMetrics.Fault
import SourceMetrics.FileSystem
import SourceMetrics.FileTree
import SourceMetrics.Glob.DoubleStar
import SourceMetrics.Glob.Expression
import SourceMetrics.Glob.Match
import SourceMetrics.Glob.Nesting
import SourceMetrics.Glob.Piece
import SourceMetrics.Glob.Search
import SourceMetrics.Glob.Symbol
import SourceMetrics.Json.Fields
import SourceMetrics.Json.Metrics
import SourceMetrics.Json.Numeral
import SourceMetrics.Json.Parser
import SourceMetrics.Json.Printer
import SourceMetrics.Json.Token
import SourceMetrics.Json.Value
import SourceMetrics.Lines
import SourceMetrics.Listing
import SourceMetrics.Names.Binding
import SourceMetrics.Names.Token
import SourceMetrics.Path
import SourceMetrics.Pattern.Basic
import SourceMetrics.Pattern.List
import SourceMetrics.Phrase.Basic
import SourceMetrics.Phrase.Scan
import SourceMetrics.Record
import SourceMetrics.Report
import SourceMetrics.Schema
import SourceMetrics.Sequence
import SourceMetrics.Settings
import SourceMetrics.Summary
import SourceMetrics.Text.Character
import SourceMetrics.Text.Utf8
import SourceMetrics.TypeAdvice
import SourceMetrics.Walk
import SourceMetrics.Main
import SourceMetrics.Proofs.Walk.Preorder
import SourceMetrics.Proofs.Walk.Refinement
import SourceMetrics.Proofs.Walk.Visits
import SourceMetrics.Proofs.Walk.Calls
import SourceMetrics.Proofs.Glob.Language
import SourceMetrics.Proofs.Glob.Reading
import SourceMetrics.Proofs.Glob.Resolution
import SourceMetrics.Proofs.Glob.Algebra
import SourceMetrics.Proofs.Glob.Extension
import SourceMetrics.Proofs.Glob.Opening
import SourceMetrics.Proofs.Pattern.Widening
import SourceMetrics.Proofs.Pattern.Occurrence
import SourceMetrics.Proofs.Text.Utf8
import SourceMetrics.Proofs.Pattern.Closure
import SourceMetrics.Proofs.Walk.Pruning
import SourceMetrics.Proofs.Text.Boundary
import SourceMetrics.Proofs.Pattern.Fragment
import SourceMetrics.Proofs.Delivery.Feed
import SourceMetrics.Proofs.Delivery.Calls
import SourceMetrics.Proofs.Collection.Order
import SourceMetrics.Proofs.FileTree.Shape
import SourceMetrics.Proofs.FileTree.Following
import SourceMetrics.Proofs.FileTree.Locating
import SourceMetrics.Proofs.FileTree.Growth
import SourceMetrics.Proofs.FileTree.Listing
import SourceMetrics.Proofs.Walk.Growth
import SourceMetrics.Proofs.Walk.Sight
import SourceMetrics.Proofs.Command.Report
import SourceMetrics.Proofs.Decimal.Shortest
import SourceMetrics.Proofs.Text.Run
import SourceMetrics.Proofs.Json.Numeral
import SourceMetrics.Proofs.Json.Token
import SourceMetrics.Proofs.Json.Parser
import SourceMetrics.Proofs.Json.Metrics
import SourceMetrics.Proofs.Phrase.Taking
import SourceMetrics.Proofs.Phrase.Places
import SourceMetrics.Proofs.Text.Word
import SourceMetrics.Proofs.Complexity.Decisions
import SourceMetrics.Proofs.Declarations.Functions
import SourceMetrics.Proofs.Total
import SourceMetrics.Proofs.Respelling.Text
import SourceMetrics.Proofs.Respelling.Scan
import SourceMetrics.Proofs.Respelling.Names
import SourceMetrics.Proofs.Lines.Splitting
import SourceMetrics.Proofs.Duplication.Distinct
import SourceMetrics.Proofs.Decimal.Magnitude
import SourceMetrics.Proofs.Respelling.Lines
import SourceMetrics.Proofs.Respelling.Record
import SourceMetrics.Proofs.Phrase.Findings
import SourceMetrics.Proofs.Names.Runs
import SourceMetrics.Proofs.Names.Declared
import SourceMetrics.Proofs.Names.Unused
import SourceMetrics.Proofs.Names.Clause
import SourceMetrics.Proofs.Names.Imported
import SourceMetrics.Proofs.Lines.Kinds
import SourceMetrics.Proofs.Joining.Places
import SourceMetrics.Proofs.Phrase.Packing
import SourceMetrics.Proofs.Declarations.Classes
import SourceMetrics.Proofs.Joining.Decisions
import SourceMetrics.Proofs.Joining.Counts
import SourceMetrics.Proofs.Joining.Names
import SourceMetrics.Proofs.Names.Entries
import SourceMetrics.Proofs.Duplication.Share
import SourceMetrics.Proofs.Summary.Hotspot
import SourceMetrics.Proofs.Summary.Merging
import SourceMetrics.Proofs.Report.Files
import SourceMetrics.Proofs.Report.Findings
import SourceMetrics.Proofs.Report.Table
import SourceMetrics.Proofs.Walk.Filtering
import SourceMetrics.Proofs.Pattern.Union
import SourceMetrics.Proofs.Pattern.Validity
import SourceMetrics.Proofs.Settings.Standard
import SourceMetrics.Proofs.Settings.Validity
import SourceMetrics.Proofs.TypeAdvice.Extension
import SourceMetrics.Proofs.TypeAdvice.Reports
import SourceMetrics.Proofs.Report.Text
import SourceMetrics.Proofs.Walk.Enumeration
import SourceMetrics.Proofs.Command.Trace
import SourceMetrics.Proofs.Command.Output
import SourceMetrics.Proofs.Json.Layout
import SourceMetrics.Proofs.Json.Structure
import SourceMetrics.Proofs.Json.Decoding
import SourceMetrics.Proofs.Text.Sequence
import SourceMetrics.Proofs.Text.Division
import SourceMetrics.Proofs.Path
