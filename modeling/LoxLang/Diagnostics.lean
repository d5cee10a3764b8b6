import LoxLang.RuntimeError
import LoxLang.SyntaxError

/-! # Diagnostics

The phases report to a `Reporter` and write to a `Sink`, and what they do does not
depend on which.  A reporter remembers whether it was told of a syntax error or of a
runtime error; the former can be forgiven, the latter cannot.

`Diagnostics` is the reporter that keeps its messages, and a list of lines is a sink.
-/
namespace LoxLang

/-- What receives reports. -/
class Reporter (R : Type) where
  /-- The reporter before any report. -/
  fresh : R
  /-- Reports an error of the source by its parts. -/
  report (r : R) (line : Nat) (location message : String) : R
  /-- Reports a runtime error. -/
  reportRuntime (r : R) (e : RuntimeError) : R
  /-- Whether a syntax error was reported and not forgiven. -/
  hadSyntaxError (r : R) : Bool
  /-- Whether a runtime error was reported. -/
  hadRuntimeError (r : R) : Bool
  /-- Forgives the syntax errors reported so far. -/
  forgive (r : R) : R

/-- Reports a syntax error. -/
def Reporter.reportSyntax {R : Type} [Reporter R] (r : R) (e : SyntaxError) : R :=
  report r e.line e.location e.message

/-- What receives the lines of programs. -/
class Sink (O : Type) where
  /-- The sink before any line. -/
  fresh : O
  /-- Writes a line. -/
  write (out : O) (line : String) : O

instance : Sink (List String) where
  fresh := []
  write out line := out ++ [line]

/-- What has been reported. -/
structure Diagnostics where
  /-- The messages, in the order in which they were reported. -/
  messages : List String := []
  /-- Whether a syntax error was reported and not forgiven. -/
  hadSyntaxError : Bool := false
  /-- Whether a runtime error was reported. -/
  hadRuntimeError : Bool := false
deriving Repr, DecidableEq

namespace Diagnostics

/-- Reports an error of the source by its parts. -/
def report (d : Diagnostics) (line : Nat) (location message : String) : Diagnostics :=
  { d with messages := d.messages ++ [reportText line location message], hadSyntaxError := true }

/-- Reports a syntax error. -/
def reportSyntax (d : Diagnostics) (e : SyntaxError) : Diagnostics :=
  d.report e.line e.location e.message

/-- Reports a runtime error. -/
def reportRuntime (d : Diagnostics) (e : RuntimeError) : Diagnostics :=
  { d with messages := d.messages ++ [e.text], hadRuntimeError := true }

/-- Forgives the syntax errors reported so far. -/
def forgive (d : Diagnostics) : Diagnostics := { d with hadSyntaxError := false }

/-- Drops the messages and keeps the rest. -/
def clearMessages (d : Diagnostics) : Diagnostics := { d with messages := [] }

end Diagnostics

instance : Reporter Diagnostics where
  fresh := {}
  report := Diagnostics.report
  reportRuntime := Diagnostics.reportRuntime
  hadSyntaxError := Diagnostics.hadSyntaxError
  hadRuntimeError := Diagnostics.hadRuntimeError
  forgive := Diagnostics.forgive

/-! ### Many lines and many errors -/

theorem foldl_write (lines out : List String) : lines.foldl Sink.write out = out ++ lines := by
  induction lines generalizing out with
  | nil => exact (List.append_nil out).symm
  | cons line lines ih => exact (ih _).trans (List.append_assoc out [line] lines)

namespace Diagnostics

theorem foldl_reportSyntax (es : List SyntaxError) (d : Diagnostics) :
    es.foldl Reporter.reportSyntax d =
      { messages := d.messages ++ es.map SyntaxError.text
        hadSyntaxError := d.hadSyntaxError || !es.isEmpty
        hadRuntimeError := d.hadRuntimeError } := by
  induction es generalizing d with
  | nil => simp
  | cons e es ih =>
    rw [List.foldl_cons, ih]
    simp [Reporter.reportSyntax, Reporter.report, report, SyntaxError.text]

end Diagnostics
end LoxLang
