import ExactEdit.Assessment.Assess
import ExactEdit.Assessment.Basic
import ExactEdit.Check.Balance
import ExactEdit.Check.Indentation
import ExactEdit.Command.Completion
import ExactEdit.Command.Ending
import ExactEdit.Command.Grammar
import ExactEdit.Command.Host
import ExactEdit.Command.Invocation
import ExactEdit.Command.Output
import ExactEdit.Command.Paint
import ExactEdit.Command.Perform
import ExactEdit.Command.Response
import ExactEdit.Command.Usage
import ExactEdit.Diff.Block
import ExactEdit.Diff.Compaction
import ExactEdit.Diff.Hunk
import ExactEdit.Diff.Line
import ExactEdit.Diff.Run
import ExactEdit.Diff.Script
import ExactEdit.Diff.Snake
import ExactEdit.Editor.Basic
import ExactEdit.Editor.Edit
import ExactEdit.Editor.Report
import ExactEdit.Editor.ReportJson
import ExactEdit.Editor.Transaction
import ExactEdit.Fault
import ExactEdit.Json.Reader
import ExactEdit.Json.Value
import ExactEdit.Json.Writer
import ExactEdit.Main
import ExactEdit.Occurrence
import ExactEdit.Proofs.Assessment
import ExactEdit.Proofs.Check.Balance
import ExactEdit.Proofs.Check.Grammar
import ExactEdit.Proofs.Check.Indentation
import ExactEdit.Proofs.Command.Arguments
import ExactEdit.Proofs.Command.Prediction
import ExactEdit.Proofs.Command.Reporting
import ExactEdit.Proofs.Diff.Alternation
import ExactEdit.Proofs.Diff.Block
import ExactEdit.Proofs.Diff.Changes
import ExactEdit.Proofs.Diff.Compaction
import ExactEdit.Proofs.Diff.Counting
import ExactEdit.Proofs.Diff.Grouping
import ExactEdit.Proofs.Diff.Hunk
import ExactEdit.Proofs.Diff.Rendering
import ExactEdit.Proofs.Diff.Replay
import ExactEdit.Proofs.Diff.Script
import ExactEdit.Proofs.Diff.Sides
import ExactEdit.Proofs.Editor.Advice
import ExactEdit.Proofs.Editor.Batch
import ExactEdit.Proofs.Editor.Calls
import ExactEdit.Proofs.Editor.Following
import ExactEdit.Proofs.Editor.Lifecycle
import ExactEdit.Proofs.Editor.Making
import ExactEdit.Proofs.Editor.Objection
import ExactEdit.Proofs.Editor.OneByOne
import ExactEdit.Proofs.Editor.Overwriting
import ExactEdit.Proofs.Editor.Plan
import ExactEdit.Proofs.Editor.Preview
import ExactEdit.Proofs.Editor.Reachable
import ExactEdit.Proofs.Editor.Rejection
import ExactEdit.Proofs.Editor.Retry
import ExactEdit.Proofs.Editor.Rollback
import ExactEdit.Proofs.Editor.Run
import ExactEdit.Proofs.Editor.Saving
import ExactEdit.Proofs.Editor.Session
import ExactEdit.Proofs.Editor.Showing
import ExactEdit.Proofs.Editor.Staging
import ExactEdit.Proofs.Editor.Stopping
import ExactEdit.Proofs.Editor.Uniqueness
import ExactEdit.Proofs.Editor.Verdict
import ExactEdit.Proofs.Json.RoundTrip
import ExactEdit.Proofs.Occurrence
import ExactEdit.Proofs.Occurrence.Coordinate
import ExactEdit.Proofs.Occurrence.Exactness
import ExactEdit.Proofs.Refusal
import ExactEdit.Proofs.Request.Json
import ExactEdit.Proofs.Result
import ExactEdit.Proofs.Scope.Ancestor
import ExactEdit.Proofs.Scope.Extent
import ExactEdit.Proofs.Scope.Innermost
import ExactEdit.Proofs.Scope.Lines
import ExactEdit.Proofs.Scope.Lookup
import ExactEdit.Proofs.Scope.Method
import ExactEdit.Proofs.Scope.Nesting
import ExactEdit.Proofs.Scope.Owner
import ExactEdit.Proofs.Scope.Resolution
import ExactEdit.Proofs.Scope.Search
import ExactEdit.Proofs.Scope.SimpleName
import ExactEdit.Proofs.Scope.Site
import ExactEdit.Proofs.Scope.Table
import ExactEdit.Proofs.Source.Block
import ExactEdit.Proofs.Source.Coordinate
import ExactEdit.Proofs.Source.Feed
import ExactEdit.Proofs.Source.Partition
import ExactEdit.Proofs.Source.Row
import ExactEdit.Proofs.Source.Span
import ExactEdit.Proofs.Source.Window
import ExactEdit.Proofs.Storage.Disk
import ExactEdit.Proofs.Storage.Files
import ExactEdit.Proofs.Suggestion.Candidates
import ExactEdit.Proofs.Suggestion.Comment
import ExactEdit.Proofs.Suggestion.Landing
import ExactEdit.Proofs.Suggestion.Narrowing
import ExactEdit.Proofs.Suggestion.Ranking
import ExactEdit.Proofs.Suggestion.Widening
import ExactEdit.Proofs.Syntax.Diagnostic
import ExactEdit.Proofs.Syntax.Flatten
import ExactEdit.Proofs.Syntax.Listing
import ExactEdit.Proofs.Syntax.Nearest
import ExactEdit.Proofs.Syntax.Path
import ExactEdit.Proofs.Syntax.Subtree
import ExactEdit.Proofs.Syntax.Walk
import ExactEdit.Proofs.Text.Boundary
import ExactEdit.Proofs.Text.Encoding
import ExactEdit.Proofs.Text.Line
import ExactEdit.Proofs.Text.Match
import ExactEdit.Proofs.Text.Overlap
import ExactEdit.Proofs.Text.Together
import ExactEdit.Refusal
import ExactEdit.Request.Basic
import ExactEdit.Request.Constraint
import ExactEdit.Request.Json
import ExactEdit.Scope.Declaration
import ExactEdit.Scope.Kind
import ExactEdit.Scope.Resolve
import ExactEdit.Scope.SimpleName
import ExactEdit.Scope.Table
import ExactEdit.Settings.Basic
import ExactEdit.Settings.Load
import ExactEdit.Settings.Scalar
import ExactEdit.Settings.Toml
import ExactEdit.Settings.Value
import ExactEdit.Settings.Yaml
import ExactEdit.Source.Basic
import ExactEdit.Source.ContentId
import ExactEdit.Source.LineIndex
import ExactEdit.Source.Position
import ExactEdit.Storage.Basic
import ExactEdit.Storage.Disk
import ExactEdit.Suggestion
import ExactEdit.Syntax.Cursor
import ExactEdit.Syntax.Diagnostic
import ExactEdit.Syntax.Language
import ExactEdit.Syntax.Listing
import ExactEdit.Syntax.ParseTree
import ExactEdit.Syntax.Point
import ExactEdit.Syntax.Tree
import ExactEdit.Text.Blank
import ExactEdit.Text.Line
import ExactEdit.Text.Offset
import ExactEdit.Text.Quoted
import ExactEdit.Text.Search
import ExactEdit.Text.Utf8
