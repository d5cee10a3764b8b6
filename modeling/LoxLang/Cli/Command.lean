import LoxLang.Cli.Arguments
import LoxLang.Cli.Folder
import LoxLang.Console
import LoxLang.Session

/-! # The command

The command runs a script in a session on the console, or reads sources line by line
at a prompt, all in one session whose syntax errors are forgiven after each line.
What it writes to its two streams and the code it exits with are a function of
its arguments, the files and the standard input.
-/
namespace LoxLang

/-! ### The session of the command -/

namespace Cli

/-- What the command leaves behind. -/
structure Outcome where
  /-- Its exit code. -/
  code : UInt8
  /-- What it writes to standard output. -/
  stdout : String
  /-- What it writes to standard error. -/
  stderr : String
deriving Repr, DecidableEq

end Cli

namespace Session
variable (s : Session Console Stdout)

/-- Writes a text to standard output. -/
def print (text : String) : Session Console Stdout := { s with output := s.output.print text }

/-- Writes a line to standard error. -/
def complain (line : String) : Session Console Stdout :=
  { s with diagnostics := s.diagnostics.writeLine line }

/-- Ends the command. -/
def exit (code : UInt8) : Cli.Outcome := ⟨code, s.output.text, s.diagnostics.text⟩

end Session

namespace Cli

/-- The exit code after a mistake in the arguments. -/
def usageCode : UInt8 := 64

/-- The exit code when the script cannot be read. -/
def noInputCode : UInt8 := 66

/-! ### Scripts -/

/-- Runs a script with the given contents, or reports why they cannot be read. -/
def runScript (s : Session Console Stdout) (path : String)
    (contents : Except ReadError (List UInt8)) : Outcome :=
  match contents >>= decode with
  | .error e =>
    (s.complain ("Failed to read the script '" ++ path ++ "': " ++ e.text)).exit noInputCode
  | .ok source =>
    match s.run source with
    | (s, some f) => (s.complain f.text).exit Session.runtimeErrorCode
    | (s, none) => s.exit (s.exitCode?.getD 0)

/-! ### The prompt -/

/-- What is written before each line is read at the prompt. -/
def promptText : String := "> "

/-- The line break. -/
def lineFeed : UInt8 := 10

/-- The carriage return, which belongs to a line break right behind it. -/
def carriageReturn : UInt8 := 13

/-- A line without the carriage return at its end. -/
def dropReturn (line : List UInt8) : List UInt8 :=
  if line.getLast? = some carriageReturn then line.dropLast else line

/-- Cuts bytes into lines.  The last needs no line break. -/
def cutLines (bytes : List UInt8) : List (List UInt8) :=
  if lineFeed ∈ bytes then
    dropReturn (bytes.takeWhile (· != lineFeed)) ::
      cutLines ((bytes.dropWhile (· != lineFeed)).drop 1)
  else if bytes = [] then []
  else [bytes]
termination_by bytes.length
decreasing_by
  rename_i h
  have hle := (bytes.dropWhile_suffix (· != lineFeed)).length_le
  have hpos := List.length_pos_of_mem h
  rw [List.length_drop]
  omega

/-- Runs one line, and gives the exit code if it ends the command. -/
def turn (s : Session Console Stdout) (line : String) : Session Console Stdout × Option UInt8 :=
  match s.run line with
  | (s, some f) => (s.complain f.text, some Session.runtimeErrorCode)
  | (s, none) => (s.forgive, none)

/-- Prompts for lines and runs them up to the end of the input or the first that is not
text. -/
def converse (s : Session Console Stdout) : List (List UInt8) → Outcome
  | [] => ((s.print promptText).print "\n").exit 0
  | bytes :: rest =>
    match decode bytes with
    | .error _ => ((s.print promptText).print "\n").exit 0
    | .ok line =>
      match turn (s.print promptText) line with
      | (s, some code) => s.exit code
      | (s, none) => converse s rest

/-! ### The command -/

/-- What the arguments say that runs are to show. -/
def Args.options (args : Args) : Options where
  dumpTokens := args.tokens
  dumpTrees := args.ast

/-- Runs what the arguments name, in a folder and with the given standard input. -/
def start (folder : Folder) (stdin : List UInt8) (args : Args) : Outcome :=
  match args.script with
  | some path => runScript { options := args.options } path (folder.read path)
  | none => converse { options := args.options } (cutLines stdin)

/-- The command, whose arguments `tryParse` reads. -/
def command (tryParse : List String → Except ArgsError Args) (folder : Folder)
    (stdin : List UInt8) (argv : List String) : Outcome :=
  match tryParse argv with
  | .error (.display text) => ⟨0, text, ""⟩
  | .error (.refused text) => ⟨usageCode, "", text⟩
  | .ok args => start folder stdin args

/-- Runs the command in a folder, with the given standard input and arguments. -/
def execute (folder : Folder) (stdin : List UInt8) (argv : List String) : Outcome :=
  command Args.tryParse folder stdin argv

end Cli
end LoxLang
