import Stylebook.Artifact
import Stylebook.Build
import Stylebook.CommandLine.Arguments
import Stylebook.CommandLine.Run
import Stylebook.Compile
import Stylebook.Css.Component
import Stylebook.Css.Lexer
import Stylebook.Css.Selector
import Stylebook.Css.Stylesheet
import Stylebook.Css.Token
import Stylebook.Css.Value
import Stylebook.Dictionary.Chain
import Stylebook.Dictionary.Module
import Stylebook.Dictionary.Trie
import Stylebook.Event
import Stylebook.Failure
import Stylebook.Graph
import Stylebook.Import.Inline
import Stylebook.Import.Search
import Stylebook.Import.Statement
import Stylebook.Main
import Stylebook.Number.Double
import Stylebook.Number.Spelling
import Stylebook.Path.Basic
import Stylebook.Path.Map
import Stylebook.Recompile
import Stylebook.Scan
import Stylebook.Settings.Basic
import Stylebook.Settings.Load
import Stylebook.Settings.Project
import Stylebook.Store.Basic
import Stylebook.Store.Edit
import Stylebook.Store.Memory
import Stylebook.Store.Tree
import Stylebook.Style.Length
import Stylebook.Style.Plain
import Stylebook.Style.Table
import Stylebook.Style.Transform
import Stylebook.Style.Value
import Stylebook.Terminal.Capabilities
import Stylebook.Terminal.Mark
import Stylebook.Terminal.Notice
import Stylebook.Terminal.Report
import Stylebook.Text.Blank
import Stylebook.Text.Digest
import Stylebook.Text.Distance
import Stylebook.Text.Json
import Stylebook.Toml.Document
import Stylebook.Toml.Item
import Stylebook.Toml.Reader
import Stylebook.Toml.Table
import Stylebook.Watch.Batcher
import Stylebook.Watch.LastSeen
import Stylebook.Watch.Live
import Stylebook.Watch.Notification
import Stylebook.Watch.Session
import Stylebook.Watch.Subscription
import Stylebook.Proofs.Path.Keys
import Stylebook.Proofs.Path.Normal
import Stylebook.Proofs.Css.Reading
import Stylebook.Proofs.Css.Selector
import Stylebook.Proofs.Css.SelectorList
import Stylebook.Proofs.Except
import Stylebook.Proofs.Graph.Cascade
import Stylebook.Proofs.Import.Adequacy
import Stylebook.Proofs.Import.Concatenation
import Stylebook.Proofs.Import.Termination
import Stylebook.Proofs.Recompile.Batch
import Stylebook.Proofs.Recompile.Flawless
import Stylebook.Proofs.Recompile.Incremental
import Stylebook.Proofs.Recompile.Recovery
import Stylebook.Proofs.Dictionary.Lookup
import Stylebook.Proofs.Import.Expansion
import Stylebook.Proofs.Style.Precedence
import Stylebook.Proofs.Css.AtKeyword
import Stylebook.Proofs.Import.Remaining
import Stylebook.Proofs.Graph.History
import Stylebook.Proofs.Number.Digits
import Stylebook.Proofs.Number.Numeral
import Stylebook.Proofs.Text.Document
import Stylebook.Proofs.Dictionary.Compound
import Stylebook.Proofs.Dictionary.Reordering
import Stylebook.Proofs.Dictionary.Separation
import Stylebook.Proofs.Dictionary.Decoding
import Stylebook.Proofs.Recompile.Cascade
import Stylebook.Proofs.Recompile.Containment
import Stylebook.Proofs.Recompile.Effect
import Stylebook.Proofs.Text.Words
import Stylebook.Proofs.Path.Order
import Stylebook.Proofs.Watch.Run
import Stylebook.Proofs.Watch.Attempts
import Stylebook.Proofs.Style.Comments
import Stylebook.Proofs.Recompile.FirstBatch
import Stylebook.Proofs.Style.Declarations
import Stylebook.Proofs.Style.Expansion
import Stylebook.Proofs.Style.FontWeight
import Stylebook.Proofs.Style.Length
import Stylebook.Proofs.Style.Naming
import Stylebook.Proofs.Style.Override
import Stylebook.Proofs.Style.Validation
import Stylebook.Proofs.Graph.BreadthFirst
import Stylebook.Proofs.Recompile.Accounting
import Stylebook.Proofs.Style.Splitting
import Stylebook.Proofs.Style.Longhands
import Stylebook.Proofs.Style.Border
import Stylebook.Proofs.Toml.Reader
import Stylebook.Proofs.Toml.Sections
import Stylebook.Proofs.Settings.Warnings
import Stylebook.Proofs.Text.Distance
import Stylebook.Proofs.Settings.Suggestion
import Stylebook.Proofs.Css.Extent
import Stylebook.Proofs.Css.Following
import Stylebook.Proofs.Css.Scanned
import Stylebook.Proofs.Css.Inside
import Stylebook.Proofs.Import.Overlooked
import Stylebook.Proofs.Import.Leftmost
import Stylebook.Proofs.Import.Positions
import Stylebook.Proofs.Path.Descent
import Stylebook.Proofs.Path.Below
import Stylebook.Proofs.Path.Relative
import Stylebook.Proofs.Recompile.Artifact
import Stylebook.Proofs.Watch.Exclusion
import Stylebook.Proofs.Watch.Scan
import Stylebook.Proofs.Style.Grouping
import Stylebook.Proofs.Css.Joined
import Stylebook.Proofs.Css.Sequence
import Stylebook.Proofs.Css.Arguments
import Stylebook.Proofs.Style.Functions
