import LoxFront.Command.Check
import LoxFront.Command.Explain
import LoxFront.Command.Files
import LoxFront.Command.Lex
import LoxFront.Command.Options
import LoxFront.Command.Run
import LoxFront.Diagnostic.Basic
import LoxFront.Diagnostic.Code
import LoxFront.Diagnostic.Docket
import LoxFront.Diagnostic.Emitter
import LoxFront.Diagnostic.Failed
import LoxFront.Diagnostic.Handbook
import LoxFront.Diagnostic.OfFault
import LoxFront.Diagnostic.Terminal
import LoxFront.Fault
import LoxFront.Grammar.Keyword
import LoxFront.Grammar.Operator
import LoxFront.Lexed
import LoxFront.Lexeme.Scan
import LoxFront.Lexeme.Tag
import LoxFront.Main
import LoxFront.Number.Binary64
import LoxFront.Number.Decimal
import LoxFront.Number.Layout
import LoxFront.Number.Reading
import LoxFront.Number.Shortest
import LoxFront.Output.Sink
import LoxFront.Proofs.Language
import LoxFront.Proofs.Longest
import LoxFront.Proofs.Utf8
import LoxFront.Source.Byte
import LoxFront.Source.Cursor
import LoxFront.Text.Blank
import LoxFront.Text.Upper
import LoxFront.Text.Utf8
import LoxFront.Token.Basic
import LoxFront.Token.Dump
import LoxFront.Proofs.Passage
import LoxFront.Proofs.LongestScan
import LoxFront.Proofs.MaximalMunch
import LoxFront.Proofs.Visits
import LoxFront.Proofs.WholeCharacters
import LoxFront.Proofs.Contributions
import LoxFront.Proofs.Partition
import LoxFront.Proofs.Lines
import LoxFront.Proofs.Docket
import LoxFront.Proofs.Check
import LoxFront.Proofs.Lookahead
import LoxFront.Proofs.Words
import LoxFront.Proofs.NewlineJoin
import LoxFront.Proofs.Gaps
import LoxFront.Proofs.Respacing
import LoxFront.Proofs.Blanking
import LoxFront.Proofs.Moves
import LoxFront.Proofs.Tiling
import LoxFront.Proofs.LineOrder
import LoxFront.Proofs.Account
import LoxFront.Proofs.Sinks
import LoxFront.Proofs.LexSource
import LoxFront.Proofs.Dump
import LoxFront.Proofs.ExitStatus
import LoxFront.Proofs.OpenEnd
import LoxFront.Proofs.Repeats
import LoxFront.Proofs.Sessions
import LoxFront.Proofs.Agreement
import LoxFront.Proofs.Reports
import LoxFront.Proofs.TerminalRuns
import LoxFront.Proofs.PlainText
import LoxFront.Proofs.Numerals
import LoxFront.Proofs.Styles
import LoxFront.Proofs.Interleaving
import LoxFront.Proofs.Options
import LoxFront.Proofs.LineLimit
import LoxFront.Proofs.Rounding
import LoxFront.Proofs.NearestValue
import LoxFront.Proofs.NumberTokens
import LoxFront.Proofs.MoveLines
import LoxFront.Proofs.Stepping
import LoxFront.Proofs.CodeNames
import LoxFront.Proofs.ShortestDigits
import LoxFront.Proofs.NumberParts
import LoxFront.Proofs.NumberText
