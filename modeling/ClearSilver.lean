import ClearSilver.Block
import ClearSilver.Check
import ClearSilver.CommandLine.Help
import ClearSilver.CommandLine.Options
import ClearSilver.Fault
import ClearSilver.Files.Decode
import ClearSilver.Files.Path
import ClearSilver.Files.Pattern
import ClearSilver.Files.Search
import ClearSilver.Files.Template
import ClearSilver.Files.Tree
import ClearSilver.Grammar
import ClearSilver.Json.Basic
import ClearSilver.Json.Binary64
import ClearSilver.Json.Numeral
import ClearSilver.Json.Reader
import ClearSilver.Json.Reading
import ClearSilver.Json.Scalar
import ClearSilver.Lookahead
import ClearSilver.Main
import ClearSilver.Mode
import ClearSilver.Mode.Lexeme
import ClearSilver.Moment
import ClearSilver.Parse
import ClearSilver.Parser.Command
import ClearSilver.Parser.Expression
import ClearSilver.Proofs.Block.Stack
import ClearSilver.Proofs.Grammar.Matches
import ClearSilver.Proofs.Grammar.Spelling
import ClearSilver.Proofs.Json.Render
import ClearSilver.Proofs.Json.Variants
import ClearSilver.Proofs.Parse.Batch
import ClearSilver.Proofs.Parse.Behind
import ClearSilver.Proofs.Parse.Canonical
import ClearSilver.Proofs.Parse.Concatenate
import ClearSilver.Proofs.Parse.Dump
import ClearSilver.Proofs.Parse.Formatting
import ClearSilver.Proofs.Parse.Grammar
import ClearSilver.Proofs.Parse.Lookahead
import ClearSilver.Proofs.Parse.Nesting
import ClearSilver.Proofs.Parse.Positions
import ClearSilver.Proofs.Parse.Queue
import ClearSilver.Proofs.Parse.RoundTrip
import ClearSilver.Proofs.Parse.Texts
import ClearSilver.Proofs.Parse.Unclosed
import ClearSilver.Proofs.Parse.ViablePrefix
import ClearSilver.Proofs.Parser.CommandAlike
import ClearSilver.Proofs.Parser.CommandKeeps
import ClearSilver.Proofs.Parser.CommandUpholds
import ClearSilver.Proofs.Parser.Encloses
import ClearSilver.Proofs.Parser.ExpressionAlike
import ClearSilver.Proofs.Parser.ExpressionKeeps
import ClearSilver.Proofs.Parser.Lasts
import ClearSilver.Proofs.Parser.LeavesOpen
import ClearSilver.Proofs.Parser.Modest
import ClearSilver.Proofs.Parser.OpenBlocks
import ClearSilver.Proofs.Parser.Siblings
import ClearSilver.Proofs.Scan.Behind
import ClearSilver.Proofs.Scan.Lexeme
import ClearSilver.Proofs.Scan.Shape
import ClearSilver.Proofs.Scan.Tiling
import ClearSilver.Proofs.Script.Feed
import ClearSilver.Proofs.Script.Keeps
import ClearSilver.Proofs.Script.Kept
import ClearSilver.Proofs.Script.Lasts
import ClearSilver.Proofs.Script.Moments
import ClearSilver.Proofs.Script.Tracks
import ClearSilver.Proofs.Script.Upholds
import ClearSilver.Proofs.Text.Location
import ClearSilver.Proofs.Tree.Dump
import ClearSilver.Proofs.Tree.Load
import ClearSilver.Proofs.Tree.Outline
import ClearSilver.Proofs.Tree.Records
import ClearSilver.Proofs.Tree.Roles
import ClearSilver.Scanner
import ClearSilver.Script
import ClearSilver.Session
import ClearSilver.Text.Basic
import ClearSilver.Text.DecimalDigit
import ClearSilver.Text.JsonString
import ClearSilver.Text.Location
import ClearSilver.Text.Printable
import ClearSilver.Text.Quoted
import ClearSilver.Text.Space
import ClearSilver.Text.Upper
import ClearSilver.Token
import ClearSilver.Tree.Basic
import ClearSilver.Tree.Build
import ClearSilver.Tree.Canonical
import ClearSilver.Tree.Dump
import ClearSilver.Tree.Json
import ClearSilver.Tree.Kind
import ClearSilver.Tree.Lexemes
import ClearSilver.Tree.Load
import ClearSilver.Tree.Relocate
import ClearSilver.Tree.Roles
import ClearSilver.Tree.Walk
import ClearSilver.Tree.Written
import ClearSilver.Proofs.Parse.Bare
import ClearSilver.Proofs.Parse.EntryPoints
import ClearSilver.Proofs.Parse.Borders
import ClearSilver.Proofs.Parse.Errors
import ClearSilver.Proofs.Parse.Conditional
import ClearSilver.Proofs.Parse.Operators
import ClearSilver.Proofs.Parser.Precedence
import ClearSilver.Proofs.Tree.Schema
import ClearSilver.Proofs.Tree.Sites
import ClearSilver.Proofs.Tree.Replace
import ClearSilver.Proofs.Files.Content
import ClearSilver.Proofs.Check.Report
import ClearSilver.Proofs.Scan.RawText
import ClearSilver.Proofs.Scan.Patterns
import ClearSilver.Proofs.Scan.LongestMatch
import ClearSilver.Proofs.Parse.Budget
import ClearSilver.Proofs.Scan.Delimiter
import ClearSilver.Proofs.Parse.Delimiter
import ClearSilver.Proofs.Scan.Progress
import ClearSilver.Proofs.Parse.Lists
import ClearSilver.Proofs.Tree.Visit
import ClearSilver.Proofs.Text.LineSearch
import ClearSilver.Proofs.Files.Tree
import ClearSilver.Proofs.Files.Pattern
import ClearSilver.Proofs.Files.Search
import ClearSilver.Proofs.Check.Directory
import ClearSilver.Proofs.Tree.Chain
