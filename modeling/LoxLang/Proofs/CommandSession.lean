import LoxLang.Proofs.ArgumentReading
import LoxLang.Proofs.ConsoleSession
import LoxLang.Proofs.History

/-! # The command does what the session does

The command is described by bytes and texts: the bytes of a file and of its standard
input, and what it writes to its two streams.  It runs a session on the console, which
stays in step with one that collects lists of lines (`Session.Shows`).  This module says
what the command does in terms of the latter.

A script is one run in a session of its own, and its exit code tells which phase was the
last: reading, a statement that failed, or the end of the program.  The prompt cuts its
input into lines (`Lines`), as far as they are text (`Typed`), and runs them one after
another in one session.  Each line adds to the streams what it adds to the lists, since a
run does not depend on what was collected before and only adds to it
(`Session.run_flush`); prompts stand between the lines (`converse_eq`).

The arguments of the command are read by a function that is left open.  All that is asked
of it is that it reads the arguments of a run as what they spell (`ReadsArgs`).
-/
namespace LoxLang

/-! ### The failure of a run -/

/-- Run one after another from no variables, one of the statements raises the error, and
those before it succeed. -/
def Raises (ss : List Stmt) (e : RuntimeError) : Prop :=
  ∃ earlier s later, ss = earlier ++ s :: later ∧ (Run.of .empty earlier).failure = none ∧
    (s.execute (Run.of .empty earlier).env).failure = some (.error e)

namespace Session

theorem raised_eq_some_iff {s : Session} {source : String} {e : RuntimeError}
    (hglobals : s.globals = .empty) (hexec : s.executes source = true) :
    s.raised source = some e ↔ Raises (readable source) e := by
  have hfailure := s.failure_effect source
  rw [effect_of_executes hexec, hglobals] at hfailure
  rw [Raises, ← Run.failure_eq_some_iff, hfailure]
  cases s.raised source <;> simp

/-! ### How a fresh session ends -/

section Fresh
variable (options : Options) {source : String}

/-- A source with faults is not executed. -/
theorem run_fresh_faulty (h : faults source ≠ []) :
    (run ({ options } : Session) source).1.exitCode? = some 65 ∧
      (run ({ options } : Session) source).1.output =
        if options.dumpTokens then (scan source).tokens.map Token.text else [] := by
  have hexec : executes { options } source = false := by
    rw [Bool.eq_false_iff]
    exact fun hexec => h (executes_iff.mp hexec).2
  rw [run_of_not_executes hexec]
  constructor
  · simp [exitCode?_eq, syntaxErrorCode, reportSyntax, Diagnostics.foldl_reportSyntax, h]
  · simp only [reportSyntax, write_eq, dumps, hexec, Bool.false_and, Bool.false_eq_true, if_false,
      List.append_nil]
    exact List.nil_append _

/-- An error that is raised is all that is reported. -/
theorem run_fresh_raised (h : faults source = []) {e : RuntimeError}
    (hraises : Raises (readable source) e) :
    (run ({ options } : Session) source).1.exitCode? = some 70 ∧
      (run ({ options } : Session) source).1.diagnostics.messages = [e.text] := by
  have hexec : executes { options } source = true := executes_iff.mpr ⟨rfl, h⟩
  have hraised := (raised_eq_some_iff rfl hexec).mpr hraises
  rw [run_fst_eq, exitCode?, hraised, h]
  exact ⟨rfl, rfl⟩

/-- A source without faults that raises no error leaves no message. -/
theorem run_fresh_quiet (h : faults source = []) (hquiet : ¬ ∃ e, Raises (readable source) e) :
    (run ({ options } : Session) source).1.exitCode? = none ∧
      (run ({ options } : Session) source).1.diagnostics.messages = [] := by
  have hexec : executes { options } source = true := executes_iff.mpr ⟨rfl, h⟩
  have hraised : raised { options } source = none := by
    rw [Option.eq_none_iff_forall_ne_some]
    exact fun e he => hquiet ⟨e, (raised_eq_some_iff rfl hexec).mp he⟩
  rw [run_fst_eq, exitCode?, hraised, h]
  exact ⟨rfl, rfl⟩

end Fresh

/-! ### What a run adds -/

/-- The lines that running a source adds to the output. -/
def written (s : Session) (source : String) : List String :=
  (s.run source).1.output.drop s.output.length

section Flush
variable (s : Session) (source : String)

theorem executes_flush : s.flush.executes source = s.executes source := by
  have hiff : s.flush.executes source = true ↔ s.executes source = true := by
    rw [executes_iff, executes_iff]
    rfl
  exact Bool.eq_iff_iff.mpr hiff

theorem effect_flush : s.flush.effect source = s.effect source := by
  rw [effect, effect, executes_flush]
  rfl

theorem raised_flush : s.flush.raised source = s.raised source := by
  rw [raised, raised, effect_flush]

theorem dumps_flush : s.flush.dumps source = s.dumps source := by
  rw [dumps, dumps, executes_flush]
  rfl

/-- **A run adds to what was collected** and does not depend on it. -/
theorem run_flush :
    (s.run source).1 =
      { (s.flush.run source).1 with
        output := s.output ++ (s.flush.run source).1.output
        diagnostics :=
          { (s.flush.run source).1.diagnostics with
            messages := s.diagnostics.messages ++
              (s.flush.run source).1.diagnostics.messages } } := by
  rw [run_fst_eq, run_fst_eq, effect_flush, raised_flush, dumps_flush]
  rfl

theorem output_run_flush : (s.flush.run source).1.output = s.written source := by
  rw [written, s.run_flush source]
  exact List.drop_left.symm

end Flush
end Session

namespace Cli

/-! ### Texts -/

/-- The bytes of a text. -/
def encode (text : String) : List UInt8 := text.toUTF8.data.toList

theorem decode_eq_ok_iff {bytes : List UInt8} {text : String} :
    decode bytes = .ok text ↔ bytes = encode text := by
  have hdecoded (b : ByteArray) : String.fromUTF8? b = some text ↔ b = text.toUTF8 := by
    rw [String.fromUTF8?, String.toUTF8_eq_toByteArray]
    constructor
    · intro h
      split at h
      · cases h
        rfl
      · cases h
    · rintro rfl
      rw [dif_pos text.isValidUTF8]
      rfl
  have hbytes : bytes = encode text ↔ (⟨bytes.toArray⟩ : ByteArray) = text.toUTF8 := by
    rw [encode, ByteArray.ext_iff, ← Array.toList_inj]
  rw [hbytes, ← hdecoded, decode]
  cases String.fromUTF8? ⟨bytes.toArray⟩ <;> simp

/-! ### Lines of bytes -/

/-- Bytes and the lines they hold.  A line ends before a line feed, or before a carriage
return and a line feed, and the last may end with the bytes. -/
inductive Lines : List UInt8 → List (List UInt8) → Prop
  | nil : Lines [] []
  | last {line : List UInt8} (hline : lineFeed ∉ line) (hne : line ≠ []) : Lines line [line]
  | feed {line rest : List UInt8} {lines : List (List UInt8)} (hline : lineFeed ∉ line)
      (hreturn : line.getLast? ≠ some carriageReturn) (hrest : Lines rest lines) :
      Lines (line ++ lineFeed :: rest) (line :: lines)
  | returnFeed {line rest : List UInt8} {lines : List (List UInt8)} (hline : lineFeed ∉ line)
      (hrest : Lines rest lines) :
      Lines (line ++ carriageReturn :: lineFeed :: rest) (line :: lines)

theorem cutLines_append {bytes : List UInt8} (h : lineFeed ∉ bytes) (rest : List UInt8) :
    cutLines (bytes ++ lineFeed :: rest) = dropReturn bytes :: cutLines rest := by
  have hmem : lineFeed ∈ bytes ++ lineFeed :: rest := List.mem_append_right _ List.mem_cons_self
  have hother : ∀ b ∈ bytes, (b != lineFeed) = true := fun b hb => by
    simpa using ne_of_mem_of_not_mem hb h
  rw [cutLines, if_pos hmem, List.takeWhile_append_of_pos hother,
    List.dropWhile_append_of_pos hother]
  simp

/-- The lines are those that bytes are cut into. -/
theorem Lines.cutLines_eq {bytes : List UInt8} {lines : List (List UInt8)}
    (h : Lines bytes lines) : cutLines bytes = lines := by
  induction h with
  | nil => simp [cutLines]
  | last hline hne => rw [cutLines, if_neg hline, if_neg hne]
  | feed hline hreturn _ ih => rw [cutLines_append hline, dropReturn, if_neg hreturn, ih]
  | @returnFeed line rest lines hline _ ih =>
    have hline' : lineFeed ∉ line ++ [carriageReturn] := by
      simpa [hline] using (by decide : lineFeed ≠ carriageReturn)
    have hbytes : line ++ carriageReturn :: lineFeed :: rest =
        line ++ [carriageReturn] ++ lineFeed :: rest := by simp
    rw [hbytes, cutLines_append hline', dropReturn, List.getLast?_concat, if_pos rfl,
      List.dropLast_concat, ih]

/-- All bytes hold lines. -/
theorem exists_lines (bytes : List UInt8) : ∃ lines, Lines bytes lines := by
  induction hn : bytes.length using Nat.strongRecOn generalizing bytes with
  | ind n ih =>
    by_cases hmem : lineFeed ∈ bytes
    · obtain ⟨line, rest, rfl, hline⟩ := List.eq_append_cons_of_mem hmem
      have hlt : rest.length < n := by
        rw [← hn, List.length_append, List.length_cons]
        omega
      obtain ⟨lines, hrest⟩ := ih rest.length hlt rest rfl
      by_cases hreturn : line.getLast? = some carriageReturn
      · obtain ⟨line, rfl⟩ := List.getLast?_eq_some_iff.mp hreturn
        rw [List.append_assoc]
        exact ⟨_, .returnFeed (fun h => hline (List.mem_append_left _ h)) hrest⟩
      · exact ⟨_, .feed hline hreturn hrest⟩
    · by_cases hnil : bytes = []
      · rw [hnil]
        exact ⟨[], .nil⟩
      · exact ⟨[bytes], .last hmem hnil⟩

/-- Nothing is left, or a line that is the encoding of no text. -/
def NoText (rest : List (List UInt8)) : Prop := ∀ line ∈ rest.head?, ∀ text, line ≠ encode text

/-- The texts of the lines that bytes hold, up to the first line that is not text. -/
def Typed (bytes : List UInt8) (texts : List String) : Prop :=
  ∃ lines rest, Lines bytes lines ∧ lines = texts.map encode ++ rest ∧ NoText rest

theorem exists_texts (lines : List (List UInt8)) :
    ∃ (texts : List String) (rest : List (List UInt8)),
      lines = texts.map encode ++ rest ∧ NoText rest := by
  induction lines with
  | nil => exact ⟨[], [], rfl, nofun⟩
  | cons line lines ih =>
    by_cases htext : ∃ text, line = encode text
    · obtain ⟨text, rfl⟩ := htext
      obtain ⟨texts, rest, rfl, hrest⟩ := ih
      exact ⟨text :: texts, rest, rfl, hrest⟩
    · refine ⟨[], line :: lines, rfl, ?_⟩
      rintro _ ⟨⟩ text heq
      exact htext ⟨text, heq⟩

theorem exists_typed (bytes : List UInt8) : ∃ texts, Typed bytes texts := by
  obtain ⟨lines, hlines⟩ := exists_lines bytes
  obtain ⟨texts, rest, hsplit, hrest⟩ := exists_texts lines
  exact ⟨texts, lines, rest, hlines, hsplit, hrest⟩

/-! ### The prompt -/

/-- What is done with a session for lines at the prompt. -/
def turns (lines : List String) : List Step := lines.flatMap fun line => [.run line, .forgive]

/-- What the prompt shows while it runs lines in one session, and at the end of them. -/
def transcript (s : Session) : List String → String
  | [] => promptText ++ "\n"
  | line :: lines =>
    promptText ++ closedLines (s.written line) ++ transcript (s.run line).1.forgive lines

/-- A line that is not text ends the prompt, as the end of the input does. -/
theorem converse_rest (c : Session Console Stdout) {rest : List (List UInt8)} (h : NoText rest) :
    converse c rest = ⟨0, c.output.text ++ promptText ++ "\n", c.diagnostics.text⟩ := by
  cases rest with
  | nil => rfl
  | cons line rest =>
    have hnone (text : String) : decode line ≠ .ok text :=
      fun hok => h line rfl text (decode_eq_ok_iff.mp hok)
    rw [converse]
    split
    · rfl
    · exact absurd ‹_› (hnone _)

/-- A session on the console goes on as the session `t` does, whatever either has written
and collected so far. -/
structure GoesOn (c : Session Console Stdout) (t : Session) : Prop where
  options : c.options = t.options
  globals : c.globals = t.globals
  hadSyntaxError : c.diagnostics.hadSyntaxError = t.diagnostics.hadSyntaxError
  hadRuntimeError : c.diagnostics.hadRuntimeError = t.diagnostics.hadRuntimeError

/-- What it shows from now on is what a session collects that has collected nothing yet. -/
theorem GoesOn.shows {c : Session Console Stdout} {t : Session} (h : GoesOn c t) :
    Session.Shows c.output.text c.diagnostics.text c t.flush where
  options := h.options
  globals := h.globals
  diagnostics :=
    { text := String.append_empty.symm
      hadSyntaxError := h.hadSyntaxError
      hadRuntimeError := h.hadRuntimeError }
  output := String.append_empty.symm

/-- **One line.**  The two sessions go on in step behind it, and it shows what the run adds
to the lists. -/
theorem converse_cons {c : Session Console Stdout} {t : Session} (h : GoesOn c t) (line : String)
    (rest : List (List UInt8)) :
    ∃ (c' : Session Console Stdout) (messages : List String),
      GoesOn c' (t.run line).1.forgive ∧
      (t.run line).1.forgive.diagnostics.messages = t.diagnostics.messages ++ messages ∧
      c'.output.text = c.output.text ++ promptText ++ closedLines (t.written line) ∧
      c'.diagnostics.text = c.diagnostics.text ++ closedLines messages ∧
      converse c (encode line :: rest) = converse c' rest := by
  have hprompted : GoesOn (c.print promptText) t := { h with }
  have hshows := (hprompted.shows.run line).forgive
  have hrun := t.run_flush line
  refine ⟨((c.print promptText).run line).1.forgive, (t.flush.run line).1.diagnostics.messages,
    ?_, ?_, ?_, hshows.diagnostics.text, ?_⟩
  · rw [hrun]
    exact
      { options := hshows.options
        globals := hshows.globals
        hadSyntaxError := hshows.diagnostics.hadSyntaxError
        hadRuntimeError := hshows.diagnostics.hadRuntimeError }
  · rw [hrun]
    rfl
  · rw [← t.output_run_flush]
    exact hshows.output
  · rw [converse, decode_eq_ok_iff.mpr rfl]
    simp only [turn_eq]

/-- **Lines**, by induction on them. -/
theorem converse_eq {c : Session Console Stdout} {t : Session} (h : GoesOn c t)
    (texts : List String) {rest : List (List UInt8)} (hrest : NoText rest) :
    ∃ messages,
      (t.replay (turns texts)).diagnostics.messages = t.diagnostics.messages ++ messages ∧
      converse c (texts.map encode ++ rest) =
        ⟨0, c.output.text ++ transcript t texts, c.diagnostics.text ++ closedLines messages⟩ := by
  induction texts generalizing c t with
  | nil =>
    refine ⟨[], (List.append_nil _).symm, ?_⟩
    rw [List.map_nil, List.nil_append, converse_rest c hrest, transcript, closedLines_nil,
      String.append_empty, String.append_assoc]
  | cons text texts ih =>
    obtain ⟨c', first, hgoes, hfirst, hstdout, hstderr, hstep⟩ :=
      converse_cons h text (texts.map encode ++ rest)
    obtain ⟨later, hlater, hconverse⟩ := ih hgoes
    refine ⟨first ++ later, ?_, ?_⟩
    · rw [← List.append_assoc, ← hfirst, ← hlater]
      rfl
    · rw [List.map_cons, List.cons_append, hstep, hconverse, hstdout, hstderr, transcript,
        closedLines_append]
      simp only [String.append_assoc]

/-! ### Scripts -/

/-- How the command ends on a script.  Its streams hold what one run in a fresh session
collects, and its exit code tells which phase was the last. -/
structure ScriptEnds (options : Options) (source : String) (outcome : Outcome) : Prop where
  stdout : outcome.stdout = closedLines (Session.run ({ options } : Session) source).1.output
  stderr : outcome.stderr =
    closedLines (Session.run ({ options } : Session) source).1.diagnostics.messages
  /-- Scanning or parsing is the last phase iff it reports an error. -/
  code_faulty : outcome.code = 65 ↔
    (scan source).errors ≠ [] ∨ (parse (scan source).tokens).errors ≠ []
  /-- No tree is shown then and nothing is executed. -/
  stdout_faulty : outcome.code = 65 → outcome.stdout =
    closedLines (if options.dumpTokens then (scan source).tokens.map Token.text else [])
  /-- Of what can be read, some statement fails. -/
  code_raised : outcome.code = 70 ↔ outcome.code ≠ 65 ∧ ∃ e, Raises (readable source) e
  /-- Its error is then all that is reported. -/
  stderr_raised : outcome.code = 70 → ∀ e, Raises (readable source) e →
    outcome.stderr = closedLines [e.text]
  /-- There is no other way to end but without a report. -/
  quiet : outcome.code ≠ 65 → outcome.code ≠ 70 → outcome.code = 0 ∧ outcome.stderr = ""

/-- **The three ways to end.** -/
theorem ScriptEnds.of_run {options : Options} {source : String} {outcome : Outcome}
    (hstdout : outcome.stdout = closedLines (Session.run ({ options } : Session) source).1.output)
    (hstderr : outcome.stderr =
      closedLines (Session.run ({ options } : Session) source).1.diagnostics.messages)
    (hcode : outcome.code = (Session.run ({ options } : Session) source).1.exitCode?.getD 0) :
    ScriptEnds options source outcome := by
  have hfaults : faults source ≠ [] ↔
      (scan source).errors ≠ [] ∨ (parse (scan source).tokens).errors ≠ [] := by
    rw [faults, ne_eq, List.append_eq_nil_iff, Classical.not_and_iff_not_or_not]
  by_cases hfaulty : faults source = []
  · by_cases hraises : ∃ e, Raises (readable source) e
    · have hexit (e : RuntimeError) (he : Raises (readable source) e) :=
        Session.run_fresh_raised options hfaulty he
      obtain ⟨e, he⟩ := hraises
      have hcode : outcome.code = 70 := by rw [hcode, (hexit e he).1, Option.getD_some]
      have hne : outcome.code ≠ 65 := by rw [hcode]; decide
      exact
        { stdout := hstdout
          stderr := hstderr
          code_faulty := iff_of_false hne (mt hfaults.mpr (absurd hfaulty))
          stdout_faulty := fun h => absurd h hne
          code_raised := iff_of_true hcode ⟨hne, e, he⟩
          stderr_raised := fun _ e he => by rw [hstderr, (hexit e he).2]
          quiet := fun _ h => absurd hcode h }
    · obtain ⟨hexit, hmessages⟩ := Session.run_fresh_quiet options hfaulty hraises
      have hcode : outcome.code = 0 := by rw [hcode, hexit, Option.getD_none]
      have hne : outcome.code ≠ 65 ∧ outcome.code ≠ 70 := by rw [hcode]; decide
      exact
        { stdout := hstdout
          stderr := hstderr
          code_faulty := iff_of_false hne.1 (mt hfaults.mpr (absurd hfaulty))
          stdout_faulty := fun h => absurd h hne.1
          code_raised := iff_of_false hne.2 fun h => hraises h.2
          stderr_raised := fun h => absurd h hne.2
          quiet := fun _ _ => ⟨hcode, by rw [hstderr, hmessages]; rfl⟩ }
  · obtain ⟨hexit, houtput⟩ := Session.run_fresh_faulty options hfaulty
    have hcode : outcome.code = 65 := by rw [hcode, hexit, Option.getD_some]
    have hne : outcome.code ≠ 70 := by rw [hcode]; decide
    exact
      { stdout := hstdout
        stderr := hstderr
        code_faulty := iff_of_true hcode (hfaults.mp hfaulty)
        stdout_faulty := fun _ => by rw [hstdout, houtput]
        code_raised := iff_of_false hne fun h => h.1 hcode
        stderr_raised := fun h => absurd h hne
        quiet := fun h => absurd hcode h }

/-- A script that is text ends as one run in a fresh session does. -/
theorem scriptEnds_runScript (options : Options) (path source : String) :
    ScriptEnds options source (runScript { options } path (.ok (encode source))) := by
  have hshows : Session.Shows "" "" { options } { options } :=
    ⟨rfl, rfl, ⟨rfl, rfl, rfl⟩, rfl⟩
  have hrun := hshows.run source
  have hdecoded : (.ok (encode source) : Except ReadError (List UInt8)) >>= decode = .ok source :=
    decode_eq_ok_iff.mpr rfl
  rw [runScript_of_decode hdecoded]
  refine .of_run (hrun.output.trans ?_) (hrun.diagnostics.text.trans ?_) ?_
  · exact String.empty_append
  · exact String.empty_append
  · exact congrArg (Option.getD · 0) hrun.exitCode?_eq

/-! ### The command -/

/-- The arguments of a run are read as what they spell. -/
def ReadsArgs (tryParse : List String → Except ArgsError Args) : Prop :=
  ∀ argv args, Spells argv args → tryParse argv = .ok args

theorem readsArgs_tryParse : ReadsArgs Args.tryParse :=
  fun _ _ h => Args.tryParse_eq_ok_iff.mpr h

/-- **The command does what the session does.**  Let its arguments spell a run.  On a script
that is text it ends as one run in a fresh session does, with the options that the
arguments switch on.  At the prompt it runs the lines of its input, up to the first that is
not text, in one session whose syntax errors are forgiven after each.  It shows what each
line adds to the output behind its own prompt, and a last prompt, and it reports what the
session does; it always succeeds. -/
theorem command_agrees_with_session (tryParse : List String → Except ArgsError Args)
    (hreads : ReadsArgs tryParse) (folder : Folder) (stdin : List UInt8) (argv : List String)
    (args : Args) (hspells : Spells argv args) :
    let options : Options := { dumpTokens := args.tokens, dumpTrees := args.ast }
    (∀ path source : String, args.script = some path →
      folder.read path = .ok (encode source) →
      ScriptEnds options source (command tryParse folder stdin argv)) ∧
    (args.script = none →
      (∃ texts, Typed stdin texts) ∧
      ∀ texts, Typed stdin texts →
        command tryParse folder stdin argv =
          ⟨0, transcript { options } texts,
            closedLines (Session.replay { options } (turns texts)).diagnostics.messages⟩) := by
  intro options
  have hcommand : command tryParse folder stdin argv = start folder stdin args := by
    rw [command, hreads argv args hspells]
  rw [hcommand]
  constructor
  · intro path source hscript hread
    rw [start, hscript]
    dsimp only
    rw [hread]
    exact scriptEnds_runScript options path source
  · intro hscript
    refine ⟨exists_typed stdin, ?_⟩
    rintro texts ⟨lines, rest, hlines, rfl, hrest⟩
    have hgoes : GoesOn { options } { options } := ⟨rfl, rfl, rfl, rfl⟩
    obtain ⟨messages, hmessages, hconverse⟩ := converse_eq hgoes texts hrest
    rw [start, hscript]
    dsimp only
    rw [hlines.cutLines_eq]
    refine hconverse.trans ?_
    rw [hmessages]
    show (⟨0, "" ++ transcript { options } texts, "" ++ closedLines messages⟩ : Outcome) = _
    rw [String.empty_append, String.empty_append]
    rfl

/-- A script that fails behind its trees, and a prompt that goes on behind a fault and
ends at a line that is not text. -/
theorem command_agrees_with_session_prompt :
    let source := "var a; print a; -a;"
    let folder : Folder := ⟨[("a.lox", encode source)]⟩
    let script := execute folder [] ["a.lox", "-a"]
    let stdin := encode "print ;\r\nprint nil;\n" ++ [255, lineFeed]
    let texts := ["print ;", "print nil;"]
    (Spells ["a.lox", "-a"] ⟨false, true, some "a.lox"⟩ ∧
      folder.read "a.lox" = .ok (encode source) ∧
      ScriptEnds ⟨false, true⟩ source script ∧
      script =
        ⟨70, "(var a)\n(print a)\n(; (- a))\nnil\n", "Operand must be a number.\n[line 1]\n"⟩) ∧
    Spells [] {} ∧ Typed stdin texts ∧
      transcript {} texts = "> > nil\n> \n" ∧
      execute folder stdin [] =
        ⟨0, transcript {} texts, "[line 1] Error at ';': Expect expression.\n"⟩ := by
  intro source folder script stdin texts
  have hscript : Spells ["a.lox", "-a"] ⟨false, true, some "a.lox"⟩ :=
    Args.tryParse_eq_ok_iff.mp rfl
  have hread : folder.read "a.lox" = .ok (encode source) := rfl
  have hprompt : Spells [] {} :=
    Args.tryParse_eq_ok_iff.mp rfl
  have htyped : Typed stdin texts := by
    have hstdin : stdin = encode "print ;" ++ carriageReturn :: lineFeed ::
        (encode "print nil;" ++ lineFeed :: ([255] ++ lineFeed :: [])) := by decide +kernel
    refine ⟨_, [[255]], hstdin ▸ .returnFeed (by decide +kernel) (.feed (by decide +kernel)
      (by decide +kernel) (.feed (by decide) (by decide) .nil)), rfl, ?_⟩
    rintro _ ⟨⟩ text htext
    have hnot : (decode [255]).toOption = none := by decide +kernel
    rw [decode_eq_ok_iff.mpr htext] at hnot
    cases hnot
  have hends := (command_agrees_with_session _ readsArgs_tryParse folder [] _ _ hscript).1
    _ _ rfl hread
  have hexecute := ((command_agrees_with_session _ readsArgs_tryParse folder stdin _ _ hprompt).2
    rfl).2 _ htyped
  refine ⟨⟨hscript, hread, hends, ?_⟩, hprompt, htyped, ?_, hexecute.trans ?_⟩
  · decide +kernel
  · decide +kernel
  · decide +kernel

end Cli
end LoxLang
