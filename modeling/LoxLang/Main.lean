import LoxLang.Cli.Command

/-! # The executable

The command on the real files and streams.  Everything it decides is decided in
`LoxLang.Cli.Command`.
-/
namespace LoxLang.Cli

/-- The reason behind an error of the system.  The code 21 is the one for a folder
where a file was asked for. -/
def ReadError.ofSystem : IO.Error → ReadError
  | .noFileOrDirectory .. => .missing
  | .inappropriateType _ code _ => if code = 21 then .isFolder else .notFolder
  | e => .other e.toString

/-- Reads a file. -/
def readBytes (path : String) : IO (Except ReadError (List UInt8)) := do
  try
    return .ok (← IO.FS.readBinFile path).toList
  catch e =>
    return .error (.ofSystem e)

/-- Writes to both streams. -/
def present (stdout stderr : String) : IO Unit := do
  (← IO.getStdout).putStr stdout
  (← IO.getStdout).flush
  (← IO.getStderr).putStr stderr

/-- Reads a line with its line break, behind the bytes `seen` of it. -/
partial def readLine (stdin : IO.FS.Stream) (seen : ByteArray) : IO ByteArray := do
  let byte ← stdin.read 1
  if byte.isEmpty then return seen
  else if byte.toList = [lineFeed] then return seen ++ byte
  else readLine stdin (seen ++ byte)

/-- Shows what a session has written since it was last shown. -/
def drain (s : Session Console Stdout) : IO (Session Console Stdout) := do
  present s.output.text s.diagnostics.text
  return { s with output := {}, diagnostics := { s.diagnostics with text := "" } }

/-- Reads and runs lines until the input ends. -/
partial def prompt (s : Session Console Stdout) : IO UInt8 := do
  let s ← drain (s.print promptText)
  let bytes ← readLine (← IO.getStdin) .empty
  match (cutLines bytes.toList).map decode with
  | .ok line :: _ => do
    let (s, code) := turn s line
    let s ← drain s
    match code with
    | some code => return code
    | none => prompt s
  | _ => do
    let _ ← drain (s.print "\n")
    return 0

end LoxLang.Cli

open LoxLang LoxLang.Cli in
/-- Runs the command. -/
def main (argv : List String) : IO UInt32 := do
  match Args.tryParse argv with
  | .ok args => do
    let s : Session Console Stdout := { options := args.options }
    match args.script with
    | none => return (← prompt s).toUInt32
    | some path => do
      let o := runScript s path (← readBytes path)
      present o.stdout o.stderr
      return o.code.toUInt32
  | .error _ => do
    let o := execute ⟨[]⟩ [] argv
    present o.stdout o.stderr
    return o.code.toUInt32
