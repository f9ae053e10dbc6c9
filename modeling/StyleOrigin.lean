import StyleOrigin.Cli.Command
import StyleOrigin.Cli.Console
import StyleOrigin.Cli.Help
import StyleOrigin.Cli.Option
import StyleOrigin.Cli.Session
import StyleOrigin.Concurrency
import StyleOrigin.Css.Char
import StyleOrigin.Css.Lexeme
import StyleOrigin.Css.Name
import StyleOrigin.Css.Nesting
import StyleOrigin.Css.Rule
import StyleOrigin.Css.Scan
import StyleOrigin.Css.Token
import StyleOrigin.Css.Write
import StyleOrigin.Ledger
import StyleOrigin.Log
import StyleOrigin.Main
import StyleOrigin.Media.Block
import StyleOrigin.Media.Fragment
import StyleOrigin.Media.Selector
import StyleOrigin.Number.Double
import StyleOrigin.Number.Numeral
import StyleOrigin.Number.Seconds
import StyleOrigin.Number.Shortest
import StyleOrigin.Path.Basic
import StyleOrigin.Path.Wildcard
import StyleOrigin.Process
import StyleOrigin.Proofs.Cli.Output
import StyleOrigin.Proofs.Cli.Summary
import StyleOrigin.Proofs.Css.Cover
import StyleOrigin.Proofs.Css.Distillation
import StyleOrigin.Proofs.Css.Essence
import StyleOrigin.Proofs.Css.FirstBlock
import StyleOrigin.Proofs.Css.Leaves
import StyleOrigin.Proofs.Css.Legible
import StyleOrigin.Proofs.Css.Lexing
import StyleOrigin.Proofs.Css.Marked
import StyleOrigin.Proofs.Css.Names
import StyleOrigin.Proofs.Css.Neighbours
import StyleOrigin.Proofs.Css.Nested
import StyleOrigin.Proofs.Css.Nodes
import StyleOrigin.Proofs.Css.Numerals
import StyleOrigin.Proofs.Css.Quotations
import StyleOrigin.Proofs.Css.Reading
import StyleOrigin.Proofs.Css.Rereading
import StyleOrigin.Proofs.Css.RoundTrip
import StyleOrigin.Proofs.Css.Scanning
import StyleOrigin.Proofs.Css.Squeezed
import StyleOrigin.Proofs.Css.Tidy
import StyleOrigin.Proofs.Css.Trees
import StyleOrigin.Proofs.Css.Unplaced
import StyleOrigin.Proofs.Css.Unseen
import StyleOrigin.Proofs.Css.Writing
import StyleOrigin.Proofs.Ledger.Arrival
import StyleOrigin.Proofs.Ledger.Assembly
import StyleOrigin.Proofs.Ledger.Grouping
import StyleOrigin.Proofs.Ledger.Mirror
import StyleOrigin.Proofs.Media.Expansion
import StyleOrigin.Proofs.Media.Fragment
import StyleOrigin.Proofs.Media.Joining
import StyleOrigin.Proofs.Media.Labels
import StyleOrigin.Proofs.Media.Narrowing
import StyleOrigin.Proofs.Media.Query
import StyleOrigin.Proofs.Media.Selectors
import StyleOrigin.Proofs.Media.Survival
import StyleOrigin.Proofs.Path.Absolute
import StyleOrigin.Proofs.Path.Normal
import StyleOrigin.Proofs.Resolver.Candidates
import StyleOrigin.Proofs.Resolver.Extension
import StyleOrigin.Proofs.Resolver.FirstSeen
import StyleOrigin.Proofs.Resolver.Routing
import StyleOrigin.Proofs.Resolver.Spellings
import StyleOrigin.Proofs.Run.Completion
import StyleOrigin.Proofs.Run.Conservation
import StyleOrigin.Proofs.Run.Ends
import StyleOrigin.Proofs.Run.Ignored
import StyleOrigin.Proofs.Run.Ignoring
import StyleOrigin.Proofs.Run.Pool
import StyleOrigin.Proofs.Run.SearchWords
import StyleOrigin.Proofs.Run.Searches
import StyleOrigin.Proofs.Run.Separation
import StyleOrigin.Proofs.Run.SourceOrder
import StyleOrigin.Proofs.Run.Stages
import StyleOrigin.Proofs.Run.Survival
import StyleOrigin.Proofs.Run.Writable
import StyleOrigin.Proofs.Search.Endings
import StyleOrigin.Proofs.Search.Output
import StyleOrigin.Proofs.Sequence
import StyleOrigin.Proofs.Source.ByteOrderMark
import StyleOrigin.Proofs.Source.CommandWords
import StyleOrigin.Proofs.Source.Loading
import StyleOrigin.Proofs.Source.Lookup
import StyleOrigin.Proofs.Text.Words
import StyleOrigin.Recorded
import StyleOrigin.Report
import StyleOrigin.Resolution
import StyleOrigin.Resolver
import StyleOrigin.Run
import StyleOrigin.RunEvent
import StyleOrigin.Search.Files
import StyleOrigin.Search.Grep
import StyleOrigin.Search.Provider
import StyleOrigin.Search.Table
import StyleOrigin.Sequence
import StyleOrigin.Settings
import StyleOrigin.Source.CommandWords
import StyleOrigin.Source.FileTree
import StyleOrigin.Source.Loading
import StyleOrigin.StyleUnit
import StyleOrigin.Text.Basic
import StyleOrigin.Text.Blank
import StyleOrigin.Text.Likeness
import StyleOrigin.Text.Lines
import StyleOrigin.Text.Printable
import StyleOrigin.Text.Quoted
import StyleOrigin.Text.Utf8
