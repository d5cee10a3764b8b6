import LoxLang.Decimal
import LoxLang.Binary64.Basic
import LoxLang.Binary64.Shortest
import LoxLang.Number
import LoxLang.Value
import LoxLang.Token
import LoxLang.Piece
import LoxLang.SyntaxError
import LoxLang.Scan
import LoxLang.Expr
import LoxLang.Postorder
import LoxLang.Rule
import LoxLang.Grammar
import LoxLang.Program
import LoxLang.RuntimeError
import LoxLang.Environment
import LoxLang.Eval
import LoxLang.Run
import LoxLang.Diagnostics
import LoxLang.Console
import LoxLang.Session
import LoxLang.Cli.Arguments
import LoxLang.Cli.Folder
import LoxLang.Cli.Command
import LoxLang.Main
import LoxLang.Proofs.Derivation
import LoxLang.Proofs.Exactness
import LoxLang.Proofs.Attempts
import LoxLang.Proofs.Acceptance
import LoxLang.Proofs.Firewall
import LoxLang.Proofs.CorrectPrefix
import LoxLang.Proofs.Lexicon
import LoxLang.Proofs.LongestMatch
import LoxLang.Proofs.Segmentation
import LoxLang.Proofs.Faultless
import LoxLang.Proofs.Height
import LoxLang.Proofs.LineBreak
import LoxLang.Proofs.SessionRuns
import LoxLang.Proofs.ConsoleSession
import LoxLang.Proofs.JoinedSources
import LoxLang.Proofs.UpToLines
import LoxLang.Proofs.Recovery
import LoxLang.Proofs.ArgumentReading
import LoxLang.Proofs.CommandSession
import LoxLang.Proofs.StackMachine
import LoxLang.Proofs.SucceedingPrefix
import LoxLang.Proofs.NestingLimit
import LoxLang.Proofs.EndOfInput
import LoxLang.Proofs.SourceLines
import LoxLang.Proofs.Rescanning
import LoxLang.Proofs.Rounding
import LoxLang.Proofs.NumberReading
import LoxLang.Proofs.ReadBack
import LoxLang.Proofs.NumberText
import LoxLang.Proofs.ScopeHistory
import LoxLang.Proofs.Declarations
import LoxLang.Proofs.DumpReading
import LoxLang.Proofs.GridSearch
import LoxLang.Proofs.FewestDigits
import LoxLang.Proofs.ShortestDecimal
import LoxLang.Proofs.Positional
import LoxLang.Proofs.ShortestText
