import Markers.Aggregation
import Markers.CommandLine
import Markers.CommandLine.Arguments
import Markers.Comment.Form
import Markers.Comment.Shape
import Markers.Discovery
import Markers.Failure
import Markers.Family
import Markers.FileSystem
import Markers.FileSystem.Action
import Markers.Filter
import Markers.Finding
import Markers.Git
import Markers.Git.Config
import Markers.Git.Inflate
import Markers.Git.Reference
import Markers.Glob
import Markers.History
import Markers.HistoryFile
import Markers.HistoryStore
import Markers.Json
import Markers.Json.Reader
import Markers.Json.Record
import Markers.Json.Token
import Markers.Keyword
import Markers.Kind
import Markers.Link
import Markers.Main
import Markers.Marker
import Markers.Path
import Markers.Plot
import Markers.Position
import Markers.Project
import Markers.Proofs.Aggregation
import Markers.Proofs.Aggregation.Order
import Markers.Proofs.Aggregation.SortKey
import Markers.Proofs.Comment.FinalNewline
import Markers.Proofs.Comment.FirstStop
import Markers.Proofs.Comment.Item
import Markers.Proofs.Comment.ItemLineEnding
import Markers.Proofs.Comment.LineEnding
import Markers.Proofs.Comment.Opener
import Markers.Proofs.Comment.Pieces
import Markers.Proofs.Comment.Stop
import Markers.Proofs.Discovery
import Markers.Proofs.Discovery.Pruning
import Markers.Proofs.Discovery.Together
import Markers.Proofs.Family
import Markers.Proofs.FileSystem
import Markers.Proofs.FileSystem.Below
import Markers.Proofs.FileSystem.Change
import Markers.Proofs.FileSystem.Tree
import Markers.Proofs.Finding
import Markers.Proofs.Glob
import Markers.Proofs.History
import Markers.Proofs.History.Chronology
import Markers.Proofs.History.Rendering
import Markers.Proofs.History.Series
import Markers.Proofs.HistoryFile
import Markers.Proofs.HistoryStore
import Markers.Proofs.Json.Reader
import Markers.Proofs.Json.Record
import Markers.Proofs.Json.Spelling
import Markers.Proofs.Json.Token
import Markers.Proofs.Keyword
import Markers.Proofs.Link
import Markers.Proofs.Link.Base36
import Markers.Proofs.Path
import Markers.Proofs.Plot
import Markers.Proofs.Position
import Markers.Proofs.Position.Counting
import Markers.Proofs.Project
import Markers.Proofs.Project.Deepest
import Markers.Proofs.Report.Alignment
import Markers.Proofs.Report.Cell
import Markers.Proofs.Report.Markdown
import Markers.Proofs.Report.Section
import Markers.Proofs.Report.Terminal
import Markers.Proofs.Repository.Elsewhere
import Markers.Proofs.Repository.Slug
import Markers.Proofs.Repository.Url
import Markers.Proofs.Run
import Markers.Proofs.Run.Again
import Markers.Proofs.Run.Artifacts
import Markers.Proofs.Scan.Block
import Markers.Proofs.Scan.Boundary
import Markers.Proofs.Scan.Coverage
import Markers.Proofs.Scan.Cut
import Markers.Proofs.Scan.FinalNewline
import Markers.Proofs.Scan.Items
import Markers.Proofs.Scan.LineComment
import Markers.Proofs.Scan.LineEnding
import Markers.Proofs.Scan.Lines
import Markers.Proofs.Scan.Longest
import Markers.Proofs.Scan.Order
import Markers.Proofs.Scan.Outcome
import Markers.Proofs.Scan.Progress
import Markers.Proofs.Scan.QuoteBlock
import Markers.Proofs.Scan.Reading
import Markers.Proofs.Scan.Run
import Markers.Proofs.Scan.Search
import Markers.Proofs.Scan.Shift
import Markers.Proofs.Scan.Span
import Markers.Proofs.Session
import Markers.Proofs.Session.Calls
import Markers.Proofs.SortedMap
import Markers.Proofs.Text
import Markers.Proofs.Text.Anchor
import Markers.Proofs.Text.Boundary
import Markers.Proofs.Text.Decimal
import Markers.Proofs.Text.LineEnding
import Markers.Proofs.Text.TripleQuote
import Markers.Proofs.Text.Utf8
import Markers.Proofs.Vocabulary
import Markers.Report.Json
import Markers.Report.Markdown
import Markers.Report.Summary
import Markers.Report.Terminal
import Markers.Repository
import Markers.Run
import Markers.Scan
import Markers.Scan.Pending
import Markers.Session
import Markers.Settings
import Markers.SortedMap
import Markers.SortedSet
import Markers.Sum
import Markers.Text.Anchor
import Markers.Text.Blank
import Markers.Text.Bytes
import Markers.Text.Pad
import Markers.Text.Part
import Markers.Text.Utf8
import Markers.Timestamp
import Markers.Timestamp.Render
