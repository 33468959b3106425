import TextUnits.Ascii
import TextUnits.Buffer.Basic
import TextUnits.Buffer.Chain
import TextUnits.Cli.Arguments
import TextUnits.Cli.Commands
import TextUnits.Cli.Program
import TextUnits.Config.Basic
import TextUnits.Config.Check
import TextUnits.Config.Load
import TextUnits.Data
import TextUnits.Encoding.Basic
import TextUnits.Encoding.Checked
import TextUnits.Encoding.Decode
import TextUnits.Encoding.Encode
import TextUnits.Encoding.Mark
import TextUnits.Encoding.Window
import TextUnits.Encoding.Wire
import TextUnits.Fault.Basic
import TextUnits.Fault.Explain
import TextUnits.Fault.Location
import TextUnits.Fault.Registry
import TextUnits.Fault.Report
import TextUnits.Fault.Template
import TextUnits.Format.Directive
import TextUnits.Format.Field
import TextUnits.Format.Float
import TextUnits.Format.Integer
import TextUnits.Format.Render
import TextUnits.Format.Separators
import TextUnits.Format.Truncate
import TextUnits.Format.Writer
import TextUnits.Lexer.Comments
import TextUnits.Lexer.Cursor
import TextUnits.Lexer.Number
import TextUnits.Lexer.Options
import TextUnits.Lexer.Scan
import TextUnits.Lexer.Token
import TextUnits.Lexer.Value
import TextUnits.Main
import TextUnits.Number.Decimal
import TextUnits.Number.Double
import TextUnits.Number.Numeral
import TextUnits.Number.Rounding
import TextUnits.Number.Sum
import TextUnits.Path
import TextUnits.Path.Stretch
import TextUnits.Scalar
import TextUnits.Scan
import TextUnits.Sequence
import TextUnits.Text.Basic
import TextUnits.Text.Lossy
import TextUnits.Text.Quoted
import TextUnits.Transcode.Basic
import TextUnits.Transcode.Named
import TextUnits.Transcode.Whole
import TextUnits.Yaml.Entry
import TextUnits.Yaml.Members
import TextUnits.Yaml.Node
import TextUnits.Yaml.Parse
import TextUnits.Yaml.Quote
import TextUnits.Yaml.Scalar
import TextUnits.Yaml.Scanner
import TextUnits.Yaml.Token
import TextUnits.Proofs.Encoding.Decoding
import TextUnits.Proofs.Transcode.Reading
import TextUnits.Proofs.Transcode.Materialize
import TextUnits.Proofs.Encoding.RoundTrip
import TextUnits.Proofs.Transcode.Whole
import TextUnits.Proofs.Encoding.Bytes
import TextUnits.Proofs.Encoding.Unmarked
import TextUnits.Proofs.Transcode.RoundTrip
import TextUnits.Proofs.Lexer.Extent
import TextUnits.Proofs.Lexer.Coverage
import TextUnits.Proofs.Lexer.Markers
import TextUnits.Proofs.Lexer.Progress
import TextUnits.Proofs.Transcode.Reconversion
import TextUnits.Proofs.Buffer.Edits
import TextUnits.Proofs.Buffer.Reachable
import TextUnits.Proofs.Buffer.Chains
import TextUnits.Proofs.Encoding.Boundaries
import TextUnits.Proofs.Scan.Lines
import TextUnits.Proofs.Lexer.Lines
import TextUnits.Proofs.Lexer.LineNumbers
import TextUnits.Proofs.Format.Writer
import TextUnits.Proofs.Format.Pieces
import TextUnits.Proofs.Format.Faults
import TextUnits.Proofs.Format.Segments
import TextUnits.Proofs.Format.Runs
import TextUnits.Proofs.Format.Concatenation
import TextUnits.Proofs.Format.Chunks
import TextUnits.Proofs.Lexer.OneLine
import TextUnits.Proofs.Buffer.Splice
import TextUnits.Proofs.Lexer.Passing
import TextUnits.Proofs.Transcode.Opening
import TextUnits.Proofs.Transcode.Marks
import TextUnits.Proofs.Transcode.Resumption
import TextUnits.Proofs.Transcode.Swapping
import TextUnits.Proofs.Lexer.Pieces
import TextUnits.Proofs.Lexer.Numerals
import TextUnits.Proofs.Text.WellFormed
import TextUnits.Proofs.Lexer.Boundaries
import TextUnits.Proofs.Lexer.Fronts
import TextUnits.Proofs.Lexer.CommentFree
import TextUnits.Proofs.Lexer.Stripping
import TextUnits.Proofs.Transcode.Leniency
import TextUnits.Proofs.Text.Characters
import TextUnits.Proofs.Text.RoundTrip
import TextUnits.Proofs.Buffer.Texts
import TextUnits.Proofs.Config.Rules
import TextUnits.Proofs.Lexer.Quotes
import TextUnits.Proofs.Lexer.Escapes
import TextUnits.Proofs.Lexer.LineComments
import TextUnits.Proofs.Number.Reading
import TextUnits.Proofs.Format.Notation
import TextUnits.Proofs.Number.Magnitude
import TextUnits.Proofs.Format.General
import TextUnits.Proofs.Text.Pairing
import TextUnits.Proofs.Transcode.Units
import TextUnits.Proofs.Transcode.Windows
import TextUnits.Proofs.Text.Stored
import TextUnits.Proofs.Encoding.Grammar
import TextUnits.Proofs.Transcode.Spelling
import TextUnits.Proofs.Scan.Lenient
import TextUnits.Proofs.Scan.Trimming
import TextUnits.Proofs.Buffer.Trimming
import TextUnits.Proofs.Lexer.Readers
import TextUnits.Proofs.Lexer.CommentValues
import TextUnits.Proofs.Lexer.Views
import TextUnits.Proofs.Lexer.InPlace
import TextUnits.Proofs.Lexer.Limits
import TextUnits.Proofs.Lexer.Literals
import TextUnits.Proofs.Lexer.NumberGrammar
import TextUnits.Proofs.Lexer.Names
import TextUnits.Proofs.Lexer.Identifiers
import TextUnits.Proofs.Encoding.InPlace
import TextUnits.Proofs.Transcode.Limits
import TextUnits.Proofs.Sequence.Parts
import TextUnits.Proofs.Buffer.Replacing
import TextUnits.Proofs.Format.Filling
import TextUnits.Proofs.Number.Radix
import TextUnits.Proofs.Format.Integers
import TextUnits.Proofs.Number.Nearest
import TextUnits.Proofs.Number.Places
import TextUnits.Proofs.Number.Quotients
import TextUnits.Proofs.Format.Hexadecimal
import TextUnits.Proofs.Format.Fixed
import TextUnits.Proofs.Format.Scaling
import TextUnits.Proofs.Format.Arguments
import TextUnits.Proofs.Number.Naturals
import TextUnits.Proofs.Number.Rounded
import TextUnits.Proofs.Format.Grammar
import TextUnits.Proofs.Path.Runs
import TextUnits.Proofs.Path.Stretches
import TextUnits.Proofs.Path.Walks
import TextUnits.Proofs.Ascii.Comparison
import TextUnits.Proofs.Path.Extensions
import TextUnits.Proofs.Path.LastDots
import TextUnits.Proofs.Ascii.Order
import TextUnits.Proofs.Ascii.Numerals
import TextUnits.Proofs.Ascii.RoundTrip
import TextUnits.Proofs.Number.Wholes
import TextUnits.Proofs.Scan.CodePoints
import TextUnits.Proofs.Scan.Counting
import TextUnits.Proofs.Cli.Interleavings
import TextUnits.Proofs.Fault.Templates
import TextUnits.Proofs.Fault.Details
