import TreeLayout.Text.Basic
import TreeLayout.Text.Unprintable
import TreeLayout.Text.Escaped
import TreeLayout.Arithmetic
import TreeLayout.Column
import TreeLayout.SourceText
import TreeLayout.Kind
import TreeLayout.Tree.Basic
import TreeLayout.Tree.Error
import TreeLayout.Tree.Builder
import TreeLayout.Tree.Raw
import TreeLayout.Tree.Focus
import TreeLayout.Tree.Arena
import TreeLayout.Tree.Arena.Builder
import TreeLayout.Tree.Arena.Loader
import TreeLayout.Data.Value
import TreeLayout.Data.Json.Number
import TreeLayout.Data.Json.Reader
import TreeLayout.Data.Json.Printer
import TreeLayout.Data.Yaml.Place
import TreeLayout.Data.Yaml.Token
import TreeLayout.Data.Yaml.Token.Flowing
import TreeLayout.Data.Yaml.Token.Block
import TreeLayout.Data.Yaml.Token.Property
import TreeLayout.Data.Yaml.Token.Lexer
import TreeLayout.Data.Yaml.Node
import TreeLayout.Data.Yaml.Scalar
import TreeLayout.Data.Yaml.Document
import TreeLayout.Data.Yaml.Reading
import TreeLayout.Data.Yaml.Datum
import TreeLayout.Data.Decode
import TreeLayout.Tree.Codec
import TreeLayout.Finding
import TreeLayout.Settings
import TreeLayout.Settings.Codec
import TreeLayout.Words
import TreeLayout.Program.Basic
import TreeLayout.Program.Table
import TreeLayout.Verify.Context
import TreeLayout.Verify.Anchor
import TreeLayout.Verify.Expression
import TreeLayout.Verify.Lookahead
import TreeLayout.Verify.Machine
import TreeLayout.Verify.Trace
import TreeLayout.Verify.Walk
import TreeLayout.Path
import TreeLayout.Files
import TreeLayout.Glob.Pattern
import TreeLayout.Glob.Search
import TreeLayout.TreeFile
import TreeLayout.Host
import TreeLayout.Host.Standard
import TreeLayout.Discovery
import TreeLayout.Document
import TreeLayout.Config
import TreeLayout.Config.Codec
import TreeLayout.Config.Load
import TreeLayout.Fix.Basic
import TreeLayout.Fix.Diff
import TreeLayout.Diagnostic
import TreeLayout.Fix.Apply
import TreeLayout.Report.Basic
import TreeLayout.Report.Seconds
import TreeLayout.Report.Ansi
import TreeLayout.Report.Text
import TreeLayout.Report.Json
import TreeLayout.Report.Github
import TreeLayout.Report.Compact
import TreeLayout.Lint
import TreeLayout.CommandLine.Options
import TreeLayout.CommandLine.Run
import TreeLayout.Main
import TreeLayout.Proofs.Data.Traversal
import TreeLayout.Proofs.Program.Flow
import TreeLayout.Proofs.Machine.Steps
import TreeLayout.Proofs.Machine.Halting
import TreeLayout.Proofs.Machine.Outcome
import TreeLayout.Proofs.Program.Forward
import TreeLayout.Proofs.Table.Programs
import TreeLayout.Proofs.Table.Halting
import TreeLayout.Proofs.Program.Language
import TreeLayout.Proofs.Table.Sequences
import TreeLayout.Proofs.Table.Lookahead
import TreeLayout.Proofs.Table.Branches
import TreeLayout.Proofs.Relocation.Tree
import TreeLayout.Proofs.Relocation.Context
import TreeLayout.Proofs.Relocation.Expression
import TreeLayout.Proofs.Relocation.Machine
import TreeLayout.Proofs.Relocation.Walk
import TreeLayout.Proofs.Relocation.Exact
import TreeLayout.Proofs.Column.Tabs
import TreeLayout.Proofs.Column.Expansion
import TreeLayout.Proofs.Relocation.Source
import TreeLayout.Proofs.Expression.Forms
import TreeLayout.Proofs.Variation.Tree
import TreeLayout.Proofs.Variation.Focus
import TreeLayout.Proofs.Variation.Checks
import TreeLayout.Proofs.Table.Visits
import TreeLayout.Proofs.Variation.Machine
import TreeLayout.Proofs.Variation.Walk
import TreeLayout.Proofs.Variation.Sharing
import TreeLayout.Proofs.Tree.Leaves
import TreeLayout.Proofs.Tree.Preorder
import TreeLayout.Proofs.Verdict.Expression
import TreeLayout.Proofs.Verdict.Walk
import TreeLayout.Proofs.Variation.Nudge
import TreeLayout.Proofs.Tree.Numbering
import TreeLayout.Proofs.Tree.Construction
import TreeLayout.Proofs.Text.Bytes
import TreeLayout.Proofs.Files.Write
import TreeLayout.Proofs.Text.Places
import TreeLayout.Proofs.Fix.Substitution
import TreeLayout.Proofs.Expression.Findings
import TreeLayout.Proofs.Walk.Findings
import TreeLayout.Proofs.Walk.Words
import TreeLayout.Proofs.Tree.Placement
import TreeLayout.Proofs.Tree.Moved
import TreeLayout.Proofs.Wrap.Checks
import TreeLayout.Proofs.Wrap.Walk
import TreeLayout.Proofs.Wrap.Edit
import TreeLayout.Proofs.Wrap.Rebuild
import TreeLayout.Proofs.Wrap.Resolve
import TreeLayout.Proofs.Raw.Validation
import TreeLayout.Proofs.Tree.Entries
import TreeLayout.Proofs.Arena.Rows
import TreeLayout.Proofs.Arena.Ways
import TreeLayout.Proofs.Arena.Filling
import TreeLayout.Proofs.Raw.Reload
import TreeLayout.Proofs.Raw.Calls
import TreeLayout.Proofs.Arena.Loader
import TreeLayout.Proofs.Arena.Builder
import TreeLayout.Proofs.Arena.WellFormed
import TreeLayout.Proofs.Tree.Spelling
import TreeLayout.Proofs.Machine.Commitment
import TreeLayout.Proofs.Lint.Rules
import TreeLayout.Proofs.Report.Lines
import TreeLayout.Proofs.Machine.Layout
import TreeLayout.Proofs.Table.Bodies
import TreeLayout.Proofs.Table.Lists
import TreeLayout.Proofs.Tree.LineEnds
import TreeLayout.Proofs.Walk.Alignment
import TreeLayout.Proofs.Expression.Conditional
import TreeLayout.Proofs.Expression.Shapes
import TreeLayout.Proofs.Expression.Chains
import TreeLayout.Proofs.Expression.Inline
import TreeLayout.Proofs.Fix.Blanks
import TreeLayout.Proofs.Fix.Placement
import TreeLayout.Proofs.Fix.Accounting
import TreeLayout.Proofs.Text.Lines
import TreeLayout.Proofs.Fix.Patch
import TreeLayout.Proofs.Text.Pieces
import TreeLayout.Proofs.Text.Positions
import TreeLayout.Proofs.Files.Plain
import TreeLayout.Proofs.Files.Paths
import TreeLayout.Proofs.Files.Relative
import TreeLayout.Proofs.Data.Fields
import TreeLayout.Proofs.Config.Keys
import TreeLayout.Proofs.Config.Loading
import TreeLayout.Proofs.Config.Calls
import TreeLayout.Proofs.Config.Chains
import TreeLayout.Proofs.Config.Layout
import TreeLayout.Proofs.Config.Run
import TreeLayout.Proofs.Program.FirstRanks
import TreeLayout.Proofs.Tree.Baselines
