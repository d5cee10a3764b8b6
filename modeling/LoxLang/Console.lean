import LoxLang.Diagnostics

/-! # The console

The reporter and the sink of the command.  Each line goes to one of the two standard
streams, closed by a line break, and what has gone to a stream is kept as one text.
-/
namespace LoxLang

/-- Reports to standard error. -/
structure Console where
  /-- What has been written to standard error. -/
  text : String := ""
  /-- Whether a syntax error was reported and not forgiven. -/
  hadSyntaxError : Bool := false
  /-- Whether a runtime error was reported. -/
  hadRuntimeError : Bool := false
deriving Repr, DecidableEq

/-- Writes a line to standard error. -/
def Console.writeLine (c : Console) (line : String) : Console :=
  { c with text := c.text ++ line ++ "\n" }

instance : Reporter Console where
  fresh := {}
  report c line location message :=
    { c.writeLine (reportText line location message) with hadSyntaxError := true }
  reportRuntime c e := { c.writeLine e.text with hadRuntimeError := true }
  hadSyntaxError := Console.hadSyntaxError
  hadRuntimeError := Console.hadRuntimeError
  forgive c := { c with hadSyntaxError := false }

/-- Standard output. -/
structure Stdout where
  /-- What has been written to it. -/
  text : String := ""
deriving Repr, DecidableEq

/-- Writes a text as it is. -/
def Stdout.print (out : Stdout) (text : String) : Stdout := ⟨out.text ++ text⟩

instance : Sink Stdout where
  fresh := {}
  write out line := out.print (line ++ "\n")

end LoxLang
