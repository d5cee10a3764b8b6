import LoxLang.Diagnostics
import LoxLang.Program
import LoxLang.Run
import LoxLang.Scan

/-! # Sessions

A session runs sources one after another on one global environment, so that later
ones see the variables of earlier ones.  It writes to its sink and reports to its
reporter, which are lists of lines and of messages unless others are named.  A source
with a syntax error is not executed, nor is any later one until the error is forgiven.
-/
namespace LoxLang

/-- What a run shows besides the output of the program. -/
structure Options where
  /-- Show every token before parsing. -/
  dumpTokens : Bool := false
  /-- Show every statement before executing the first. -/
  dumpTrees : Bool := false
deriving Repr, DecidableEq

/-- The state of a session. -/
structure Session (R : Type := Diagnostics) (O : Type := List String) [Reporter R] [Sink O] where
  /-- What runs show. -/
  options : Options := {}
  /-- The variables. -/
  globals : Environment := .empty
  /-- What has been reported. -/
  diagnostics : R := Reporter.fresh
  /-- The lines written. -/
  output : O := Sink.fresh
deriving Repr, DecidableEq

namespace Session
variable {R O : Type} [Reporter R] [Sink O]

/-- Writes lines. -/
def write (s : Session R O) (lines : List String) : Session R O :=
  { s with output := lines.foldl Sink.write s.output }

/-- Reports syntax errors. -/
def reportSyntax (s : Session R O) (errors : List SyntaxError) : Session R O :=
  { s with diagnostics := errors.foldl Reporter.reportSyntax s.diagnostics }

/-- Reports a runtime error. -/
def reportRuntime (s : Session R O) (e : RuntimeError) : Session R O :=
  { s with diagnostics := Reporter.reportRuntime s.diagnostics e }

/-- Runs one statement and hands back its failure unreported. -/
def runStatement (s : Session R O) (statement : Stmt) : Session R O × Option Failure :=
  let run := statement.execute s.globals
  ({ s.write run.output with globals := run.env }, run.failure)

/-- Runs statements up to the first that fails.  A runtime error is reported; an operator
fault is handed back. -/
def runStatements (s : Session R O) : List Stmt → Session R O × Option OperatorFault
  | [] => (s, none)
  | statement :: statements =>
    match s.runStatement statement with
    | (s, none) => s.runStatements statements
    | (s, some (.error e)) => (s.reportRuntime e, none)
    | (s, some (.fault f)) => (s, some f)

/-- Runs a source, unless it or an earlier one that was not forgiven has a syntax
error. -/
def run (s : Session R O) (source : String) : Session R O × Option OperatorFault :=
  let scanned := scan source
  let program := parse scanned.tokens
  let s := s.write (if s.options.dumpTokens then scanned.tokens.map Token.text else [])
  let s := s.reportSyntax (scanned.errors ++ program.errors)
  if Reporter.hadSyntaxError s.diagnostics then (s, none)
  else
    let s := s.write (if s.options.dumpTrees then program.statements.map Stmt.text else [])
    s.runStatements program.statements

/-- Runs the statements of a source that could be read, whatever errors it has. -/
def runReadable (s : Session R O) (source : String) : Session R O × Option OperatorFault :=
  let scanned := scan source
  let program := parse scanned.tokens
  (s.reportSyntax (scanned.errors ++ program.errors)).runStatements program.statements

/-- Forgives the syntax errors so far, so that the next source can be executed. -/
def forgive (s : Session R O) : Session R O :=
  { s with diagnostics := Reporter.forgive s.diagnostics }

/-- Drops the output and the messages collected so far and keeps the rest. -/
def flush (s : Session) : Session :=
  { s with output := [], diagnostics := s.diagnostics.clearMessages }

/-- The exit code after a syntax error. -/
def syntaxErrorCode : UInt8 := 65

/-- The exit code after a runtime error. -/
def runtimeErrorCode : UInt8 := 70

/-- The exit code that what was reported calls for.  A syntax error takes
precedence over a runtime error. -/
def exitCode? (s : Session R O) : Option UInt8 :=
  if Reporter.hadSyntaxError s.diagnostics then some syntaxErrorCode
  else if Reporter.hadRuntimeError s.diagnostics then some runtimeErrorCode
  else none

end Session
end LoxLang
