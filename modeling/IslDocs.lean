import IslDocs.Text.Basic
import IslDocs.Text.Utf8
import IslDocs.Text.Space
import IslDocs.Text.Lines
import IslDocs.Text.BlankLines
import IslDocs.Text.Alphanumeric
import IslDocs.Text.Word
import IslDocs.Digest.Sha256
import IslDocs.Section.Marker
import IslDocs.Section.Kind
import IslDocs.Section.Heading
import IslDocs.Section.Basic
import IslDocs.Section.Outline
import IslDocs.Section.Scan
import IslDocs.Validation.Rule
import IslDocs.Validation.Keyword
import IslDocs.Validation.Diagnostic
import IslDocs.Validation.Field
import IslDocs.Validation.Entity
import IslDocs.Validation.Check
import IslDocs.Validation.Report
import IslDocs.Validation.Markdown
import IslDocs.Reference.Line
import IslDocs.Path.Basic
import IslDocs.Path.Join
import IslDocs.Path.Normal
import IslDocs.Interface.Flow
import IslDocs.Interface.Projection
import IslDocs.Interface.Context
import IslDocs.Graph.Basic
import IslDocs.Graph.Sweep
import IslDocs.Graph.Cycle
import IslDocs.Graph.Order
import IslDocs.Tree.Fault
import IslDocs.Failure.Basic
import IslDocs.Failure.Markdown
import IslDocs.Json.Value
import IslDocs.Json.Lexer
import IslDocs.Json.Parser
import IslDocs.Manifest.Basic
import IslDocs.Manifest.Codec
import IslDocs.Toml.Lexer
import IslDocs.Toml.Settings
import IslDocs.Config.Basic
import IslDocs.Tree.Basic
import IslDocs.Tree.Locate
import IslDocs.Tree.Access
import IslDocs.Config.Load
import IslDocs.Manifest.File
import IslDocs.Project.Documents
import IslDocs.Project.Plan
import IslDocs.Project.Build
import IslDocs.Project.Freshness
import IslDocs.Reference.Inline
import IslDocs.Command.Output
import IslDocs.Command.Info
import IslDocs.Command.Run
import IslDocs.Command.Arguments
import IslDocs.Command.Help
import IslDocs.Project.Watched
import IslDocs.Command.Reach
import IslDocs.Main
import IslDocs.Proofs.Path.Same
import IslDocs.Proofs.Graph.Records
import IslDocs.Proofs.Graph.Counting
import IslDocs.Proofs.Graph.Invariant
import IslDocs.Proofs.Graph.Loop
import IslDocs.Proofs.Graph.Order
import IslDocs.Proofs.Path.Plain
import IslDocs.Proofs.Path.Normal
import IslDocs.Proofs.Tree.Entries
import IslDocs.Proofs.Tree.Location
import IslDocs.Proofs.Tree.Change
import IslDocs.Proofs.Json.Lexing
import IslDocs.Proofs.Json.RoundTrip
import IslDocs.Proofs.Manifest.RoundTrip
import IslDocs.Proofs.Project.Documents
import IslDocs.Proofs.Project.Order
import IslDocs.Proofs.Project.Layout
import IslDocs.Proofs.Project.Render
import IslDocs.Proofs.Project.Build
import IslDocs.Proofs.Project.Inlined
import IslDocs.Proofs.Project.Freshness
import IslDocs.Proofs.Graph.Depth
import IslDocs.Proofs.Graph.Breadth
import IslDocs.Proofs.Project.Local
import IslDocs.Proofs.Command.Order
import IslDocs.Proofs.Project.Record
import IslDocs.Proofs.Project.Lookups
import IslDocs.Proofs.Text.Occurrence
import IslDocs.Proofs.Validation.Errors
import IslDocs.Proofs.Tree.Repeat
import IslDocs.Proofs.Project.Rebuild
import IslDocs.Proofs.Project.Output
import IslDocs.Proofs.Text.BlankLines
import IslDocs.Proofs.Interface.Flow
import IslDocs.Proofs.Interface.Projection
import IslDocs.Proofs.Reference.Inlining
import IslDocs.Proofs.Reference.Resolve
import IslDocs.Proofs.Reference.Walk
import IslDocs.Proofs.Reference.Preorder
import IslDocs.Proofs.Section.Heading
import IslDocs.Proofs.Text.Trim
import IslDocs.Proofs.Section.Blocks
import IslDocs.Proofs.Section.Content
import IslDocs.Proofs.Section.Title
import IslDocs.Proofs.Section.Reconstruction
import IslDocs.Proofs.Path.Above
import IslDocs.Proofs.Tree.Confined
import IslDocs.Proofs.Project.Frame
import IslDocs.Proofs.Project.Accounts
import IslDocs.Proofs.Text.Spacing
import IslDocs.Proofs.Interface.Spacing
import IslDocs.Proofs.Project.Spacing
import IslDocs.Proofs.Reference.Feedless
import IslDocs.Proofs.Reference.Blocks
import IslDocs.Proofs.Tree.Contents
import IslDocs.Proofs.Section.Extent
import IslDocs.Proofs.Section.Append
import IslDocs.Proofs.Path.Canonical
import IslDocs.Proofs.Text.Search
import IslDocs.Proofs.Text.Word
import IslDocs.Proofs.Validation.Keyword
import IslDocs.Proofs.Validation.Field
import IslDocs.Proofs.Validation.Entity
import IslDocs.Proofs.Validation.Partition
import IslDocs.Proofs.Validation.Report
import IslDocs.Proofs.Manifest.Operations
import IslDocs.Proofs.Reference.Line
import IslDocs.Proofs.Interface.LineEnds
import IslDocs.Proofs.Text.FeedRuns
import IslDocs.Proofs.Project.Places
import IslDocs.Proofs.Graph.Adjacency
import IslDocs.Proofs.Graph.Counters
