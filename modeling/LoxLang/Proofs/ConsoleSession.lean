import LoxLang.Console
import LoxLang.Session

/-! # Sessions that run in step

A session asks its reporter for the two flags and its sink for nothing.  So whatever is
said of two reporters that have the same flags, and of two sinks, is so behind every run if
it is so behind every report and every line (`InStep.run`): the runs define the same
variables, write the same lines, and end alike.  The step lemmas say it of what a run is
made of, and a run follows by induction on its statements.

The session of the command reports and writes to the console, and a session of lists
collects the same (`Session.Shows`): what has gone to a standard stream is the text of what
is in its list, each line closed by a line break, behind what stood there before.
-/
namespace LoxLang

/-! ### Related reporters and sinks -/

section Simulation
variable {R R' O O' : Type} [Reporter R] [Reporter R'] [Sink O] [Sink O']

/-- Related reporters have the same flags, and stay related whatever is reported. -/
structure Reporter.Simulation (related : R → R' → Prop) : Prop where
  report : ∀ {r r'}, related r r' → ∀ line location message,
    related (Reporter.report r line location message) (Reporter.report r' line location message)
  reportRuntime : ∀ {r r'}, related r r' → ∀ e,
    related (Reporter.reportRuntime r e) (Reporter.reportRuntime r' e)
  forgive : ∀ {r r'}, related r r' → related (Reporter.forgive r) (Reporter.forgive r')
  hadSyntaxError : ∀ {r r'}, related r r' → Reporter.hadSyntaxError r = Reporter.hadSyntaxError r'
  hadRuntimeError : ∀ {r r'}, related r r' →
    Reporter.hadRuntimeError r = Reporter.hadRuntimeError r'

/-- Related sinks stay related whatever is written. -/
structure Sink.Simulation (related : O → O' → Prop) : Prop where
  write : ∀ {out out'}, related out out' → ∀ line,
    related (Sink.write out line) (Sink.write out' line)

/-- Two sessions with the same options and variables, and with related reporters and
sinks. -/
structure Session.InStep (reporters : R → R' → Prop) (sinks : O → O' → Prop)
    (s : Session R O) (s' : Session R' O') : Prop where
  options : s.options = s'.options
  globals : s.globals = s'.globals
  diagnostics : reporters s.diagnostics s'.diagnostics
  output : sinks s.output s'.output

namespace Session.InStep
variable {reporters : R → R' → Prop} {sinks : O → O' → Prop}
variable {s : Session R O} {s' : Session R' O'}

section Reporters
variable (hreporters : Reporter.Simulation reporters)
include hreporters

theorem reportSyntax (h : InStep reporters sinks s s') (errors : List SyntaxError) :
    InStep reporters sinks (s.reportSyntax errors) (s'.reportSyntax errors) := by
  refine { h with diagnostics := ?_ }
  have hdiagnostics := h.diagnostics
  unfold Session.reportSyntax
  generalize s.diagnostics = r, s'.diagnostics = r' at hdiagnostics
  induction errors generalizing r r' with
  | nil => exact hdiagnostics
  | cons e errors ih => exact ih _ _ (hreporters.report hdiagnostics _ _ _)

theorem reportRuntime (h : InStep reporters sinks s s') (e : RuntimeError) :
    InStep reporters sinks (s.reportRuntime e) (s'.reportRuntime e) :=
  { h with diagnostics := hreporters.reportRuntime h.diagnostics e }

theorem forgive (h : InStep reporters sinks s s') :
    InStep reporters sinks s.forgive s'.forgive :=
  { h with diagnostics := hreporters.forgive h.diagnostics }

theorem exitCode?_eq (h : InStep reporters sinks s s') : s.exitCode? = s'.exitCode? := by
  unfold exitCode?
  rw [hreporters.hadSyntaxError h.diagnostics, hreporters.hadRuntimeError h.diagnostics]

end Reporters

section Sinks
variable (hsinks : Sink.Simulation sinks)
include hsinks

theorem write (h : InStep reporters sinks s s') (lines : List String) :
    InStep reporters sinks (s.write lines) (s'.write lines) := by
  refine { h with output := ?_ }
  have houtput := h.output
  unfold Session.write
  generalize s.output = out, s'.output = out' at houtput
  induction lines generalizing out out' with
  | nil => exact houtput
  | cons line lines ih => exact ih _ _ (hsinks.write houtput line)

/-- **One statement.** -/
theorem runStatement (h : InStep reporters sinks s s') (statement : Stmt) :
    InStep reporters sinks (s.runStatement statement).1 (s'.runStatement statement).1 ∧
      (s.runStatement statement).2 = (s'.runStatement statement).2 := by
  unfold Session.runStatement
  rw [h.globals]
  exact ⟨{ h.write hsinks (statement.execute s'.globals).output with globals := rfl }, rfl⟩

end Sinks

section Runs
variable (hreporters : Reporter.Simulation reporters) (hsinks : Sink.Simulation sinks)
include hreporters hsinks

/-- **Statements.** -/
theorem runStatements (h : InStep reporters sinks s s') (ss : List Stmt) :
    InStep reporters sinks (s.runStatements ss).1 (s'.runStatements ss).1 ∧
      (s.runStatements ss).2 = (s'.runStatements ss).2 := by
  induction ss generalizing s s' with
  | nil => exact ⟨h, rfl⟩
  | cons statement ss ih =>
    obtain ⟨hnext, hfailure⟩ := h.runStatement hsinks statement
    rcases hrun : s.runStatement statement with ⟨next, failure⟩
    rcases hrun' : s'.runStatement statement with ⟨next', failure'⟩
    rw [hrun, hrun'] at hnext hfailure
    obtain rfl : failure = failure' := hfailure
    rw [Session.runStatements, Session.runStatements, hrun, hrun']
    match failure with
    | none => exact ih hnext
    | some (.error e) => exact ⟨hnext.reportRuntime hreporters e, rfl⟩
    | some (.fault f) => exact ⟨hnext, rfl⟩

/-- **A source.**  Both sessions run it or neither does, and they end alike. -/
theorem run (h : InStep reporters sinks s s') (source : String) :
    InStep reporters sinks (s.run source).1 (s'.run source).1 ∧
      (s.run source).2 = (s'.run source).2 := by
  unfold Session.run
  dsimp only
  rw [h.options]
  generalize (if s'.options.dumpTokens then (scan source).tokens.map Token.text else []) = tokens
  generalize (scan source).errors ++ (parse (scan source).tokens).errors = errors
  have hreported := (h.write hsinks tokens).reportSyntax hreporters errors
  rw [hreporters.hadSyntaxError hreported.diagnostics, hreported.options]
  split
  · exact ⟨hreported, rfl⟩
  · exact (hreported.write hsinks _).runStatements hreporters hsinks _

end Runs

end Session.InStep
end Simulation

/-! ### The console and lists -/

/-- Lines, each closed by a line break. -/
def closedLines (lines : List String) : String := String.join (lines.map (· ++ "\n"))

@[simp] theorem closedLines_nil : closedLines [] = "" := rfl

theorem closedLines_append (xs ys : List String) :
    closedLines (xs ++ ys) = closedLines xs ++ closedLines ys := by
  simp [closedLines]

theorem append_closedLines_concat (before : String) (lines : List String) (line : String) :
    before ++ closedLines (lines ++ [line]) = before ++ closedLines lines ++ line ++ "\n" := by
  simp [closedLines, String.append_assoc]

/-- Behind the text `before`, the console has written the messages, and it has the same
flags. -/
structure Console.Shows (before : String) (c : Console) (d : Diagnostics) : Prop where
  text : c.text = before ++ closedLines d.messages
  hadSyntaxError : c.hadSyntaxError = d.hadSyntaxError
  hadRuntimeError : c.hadRuntimeError = d.hadRuntimeError

theorem Console.simulation (before : String) : Reporter.Simulation (Shows before) where
  report h line location message :=
    { text := by
        refine Eq.trans ?_ (append_closedLines_concat before _ _).symm
        rw [← h.text]
        rfl
      hadSyntaxError := rfl
      hadRuntimeError := h.hadRuntimeError }
  reportRuntime h e :=
    { text := by
        refine Eq.trans ?_ (append_closedLines_concat before _ _).symm
        rw [← h.text]
        rfl
      hadSyntaxError := h.hadSyntaxError
      hadRuntimeError := rfl }
  forgive h := { h with hadSyntaxError := rfl }
  hadSyntaxError h := h.hadSyntaxError
  hadRuntimeError h := h.hadRuntimeError

/-- Behind the text `before`, the lines have been written. -/
def Stdout.Shows (before : String) (out : Stdout) (lines : List String) : Prop :=
  out.text = before ++ closedLines lines

theorem Stdout.simulation (before : String) : Sink.Simulation (Shows before) where
  write {out lines} h line := by
    unfold Shows at h ⊢
    refine Eq.trans ?_ (append_closedLines_concat before lines line).symm
    rw [← h, String.append_assoc]
    rfl

namespace Session

/-- Behind two texts, a session on the console has written to the standard streams what the
session `s` has collected. -/
abbrev Shows (stdout stderr : String) (c : Session Console Stdout) (s : Session) : Prop :=
  InStep (Console.Shows stderr) (Stdout.Shows stdout) c s

namespace Shows
variable {stdout stderr : String} {c : Session Console Stdout} {s : Session}

/-- **The console and lists stay in step** on every source. -/
theorem run (h : Shows stdout stderr c s) (source : String) :
    Shows stdout stderr (c.run source).1 (s.run source).1 :=
  (InStep.run (Console.simulation stderr) (Stdout.simulation stdout) h source).1

theorem forgive (h : Shows stdout stderr c s) : Shows stdout stderr c.forgive s.forgive :=
  InStep.forgive (Console.simulation stderr) h

theorem exitCode?_eq (h : Shows stdout stderr c s) : c.exitCode? = s.exitCode? :=
  InStep.exitCode?_eq (Console.simulation stderr) h

end Shows
end Session
end LoxLang
