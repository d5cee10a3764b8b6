/-! # Command line arguments

Arguments are read from left to right, and the first that decides what to do ends
the reading: a request for the help or the version, or a mistake.  Flags of one
letter can be combined and may stand behind the script; behind `--` there are no
flags.
-/
namespace LoxLang.Cli

/-- What the arguments of the command say. -/
structure Args where
  /-- Whether to show every token. -/
  tokens : Bool := false
  /-- Whether to show every statement. -/
  ast : Bool := false
  /-- The script, if one is named. -/
  script : Option String := none
deriving Repr, DecidableEq

/-- What there is to say when arguments do not start a run. -/
inductive ArgsError where
  /-- The help or the version, which was asked for. -/
  | display (text : String)
  /-- What is wrong with the arguments. -/
  | refused (text : String)
deriving Repr, DecidableEq

/-- What the command shows for its version. -/
def versionText : String := "treelox 0.1.0\n"

/-- What the command shows for help. -/
def helpText : String :=
  "A tree-walking interpreter for the Lox scripting language\n" ++
  "\n" ++
  "Usage: treelox [OPTIONS] [SCRIPT]\n" ++
  "\n" ++
  "Arguments:\n" ++
  "  [SCRIPT]  The script to run. Starts the interactive prompt when omitted\n" ++
  "\n" ++
  "Options:\n" ++
  "  -t, --tokens   Print every scanned token before running\n" ++
  "  -a, --ast      Print every parsed statement as a prefix tree before running\n" ++
  "  -h, --help     Print help\n" ++
  "  -V, --version  Print version\n"

/-- A flag of the command line. -/
inductive Flag where
  | tokens | ast | help | version
deriving Repr, DecidableEq

/-- The flag of one letter behind a single dash. -/
def Flag.ofLetter? : Char → Option Flag
  | 't' => some tokens
  | 'a' => some ast
  | 'h' => some help
  | 'V' => some version
  | _ => none

/-- The flag of a name behind two dashes. -/
def Flag.ofName? : String → Option Flag
  | "tokens" => some tokens
  | "ast" => some ast
  | "help" => some help
  | "version" => some version
  | _ => none

/-- A mistake in the arguments. -/
inductive UsageError where
  | unknownFlag (arg : String)
  | repeatedFlag (arg : String)
  | extraArgument (arg : String)
  | emptyScript
deriving Repr, DecidableEq

/-- The wording of a mistake. -/
def UsageError.text : UsageError → String
  | unknownFlag arg => "unexpected argument '" ++ arg ++ "'"
  | repeatedFlag arg => "the flag '" ++ arg ++ "' cannot be used twice"
  | extraArgument arg => "unexpected argument '" ++ arg ++ "'"
  | emptyScript => "the name of the script is empty"

namespace Args

/-- A mistake ends the reading. -/
def refuse (e : UsageError) : Except ArgsError Args :=
  .error (.refused ("error: " ++ e.text ++ "\n"))

/-- Takes in a flag that was spelled in `arg`. -/
def flag (args : Args) (arg : String) : Flag → Except ArgsError Args
  | .help => .error (.display helpText)
  | .version => .error (.display versionText)
  | .tokens =>
    if args.tokens then refuse (.repeatedFlag arg) else .ok { args with tokens := true }
  | .ast => if args.ast then refuse (.repeatedFlag arg) else .ok { args with ast := true }

/-- Takes in what may be a flag and was spelled in `arg`. -/
def flag? (args : Args) (arg : String) : Option Flag → Except ArgsError Args
  | some f => args.flag arg f
  | none => refuse (.unknownFlag arg)

/-- Takes in the name of the script. -/
def positional (args : Args) (arg : String) : Except ArgsError Args :=
  if args.script.isSome then refuse (.extraArgument arg)
  else if arg = "" then refuse .emptyScript
  else .ok { args with script := some arg }

/-- Takes in one argument.  A dash alone is no flag. -/
def argument (args : Args) (arg : String) : Except ArgsError Args :=
  match arg.toList with
  | '-' :: '-' :: name => args.flag? arg (Flag.ofName? (String.ofList name))
  | '-' :: letter :: letters =>
    (letter :: letters).foldlM (fun args c => args.flag? arg (Flag.ofLetter? c)) args
  | _ => args.positional arg

/-- Takes in arguments, one after another. -/
def arguments (args : Args) : List String → Except ArgsError Args
  | [] => .ok args
  | arg :: more =>
    if arg = "--" then more.foldlM positional args
    else do (← args.argument arg).arguments more

/-- Reads the arguments of the command. -/
def tryParse (argv : List String) : Except ArgsError Args := arguments {} argv

end Args
end LoxLang.Cli
