import LoxLang.Session
import LoxLang.Proofs.Faultless

/-! # What running a source does to a session

A source is executed if no syntax error is known when it has been parsed
(`Session.executes`), that is, if it has no faults of its own and none is left to be
forgiven (`executes_iff`).  Running it then has the effect of a run of its statements
(`runStatements_eq_finish`), and otherwise none but its reports.  `run_fst_eq` tells the
whole session after a run in these words, and `run_fst` does for sessions that dump
neither tokens nor trees; what comes later about runs is derived from them.
-/
namespace LoxLang

/-- What is wrong with a source: faults of its characters, then faults of its
tokens. -/
def faults (source : String) : List SyntaxError :=
  (scan source).errors ++ (parse (scan source).tokens).errors

/-- The statements that can be read from a source. -/
def readable (source : String) : List Stmt := (parse (scan source).tokens).statements

namespace Session

theorem write_eq (s : Session) (lines : List String) :
    s.write lines = { s with output := s.output ++ lines } := by
  rw [write, foldl_write]

theorem exitCode?_eq (s : Session) :
    s.exitCode? =
      if s.diagnostics.hadSyntaxError then some syntaxErrorCode
      else if s.diagnostics.hadRuntimeError then some runtimeErrorCode
      else none := rfl

/-! ### Runs of statements -/

/-- Takes over how a run ended.  A runtime error is reported; an operator fault is
handed back. -/
def finish (s : Session) (run : Run) : Session × Option OperatorFault :=
  let s := { s.write run.output with globals := run.env }
  match run.failure with
  | none => (s, none)
  | some (.error e) => (s.reportRuntime e, none)
  | some (.fault f) => (s, some f)

/-- **Statements are run as from the variables of the session.** -/
theorem runStatements_eq_finish (s : Session) (ss : List Stmt) :
    s.runStatements ss = s.finish (Run.of s.globals ss) := by
  induction ss generalizing s with
  | nil => rfl
  | cons statement ss ih =>
    rcases statement.execute_cases s.globals with ⟨env, lines, hexec, -⟩ | ⟨e, -, f, -, hexec⟩
    · have hrun : s.runStatement statement =
          ({ s.write lines with globals := env }, none) := by
        rw [runStatement, hexec]
      rw [Run.of_cons_ok hexec, runStatements, hrun]
      refine (ih _).trans ?_
      simp only [finish, write_eq, List.append_assoc]
    · have hrun : s.runStatement statement = (s, some f) := by
        rw [runStatement, hexec]
        rfl
      rw [Run.of_cons_error (by rw [hexec]), runStatements, hrun]
      cases f <;> rfl

/-! ### Runs of sources -/

/-- Whether no syntax error is known to the session when a source has been parsed, so
that the source is executed. -/
def executes (s : Session) (source : String) : Bool :=
  !(s.reportSyntax (faults source)).diagnostics.hadSyntaxError

/-- How a source runs, as far as it is executed. -/
def effect (s : Session) (source : String) : Run :=
  if s.executes source then Run.of s.globals (readable source) else ⟨s.globals, [], none⟩

/-- The runtime error that running a source raises. -/
def raised (s : Session) (source : String) : Option RuntimeError :=
  match (s.effect source).failure with
  | some (.error e) => some e
  | _ => none

/-- The dumps that a source is shown with: its tokens, and its statements if it is
executed. -/
def dumps (s : Session) (source : String) : List String :=
  (if s.options.dumpTokens then (scan source).tokens.map Token.text else []) ++
    if s.executes source && s.options.dumpTrees then (readable source).map Stmt.text else []

theorem executes_iff {s : Session} {source : String} :
    s.executes source = true ↔ s.diagnostics.hadSyntaxError = false ∧ faults source = [] := by
  simp [executes, reportSyntax, Diagnostics.foldl_reportSyntax]

section Executes
variable {s : Session} {source : String}

theorem effect_of_executes (h : s.executes source = true) :
    s.effect source = Run.of s.globals (readable source) := if_pos h

theorem effect_of_not_executes (h : s.executes source = false) :
    s.effect source = ⟨s.globals, [], none⟩ := if_neg (by simp [h])

theorem raised_of_not_executes (h : s.executes source = false) : s.raised source = none := by
  rw [raised, effect_of_not_executes h]

/-- A source ends on a runtime error or not at all. -/
theorem failure_effect (s : Session) (source : String) :
    (s.effect source).failure = (s.raised source).map Failure.error := by
  cases hexec : s.executes source with
  | false => rw [raised_of_not_executes hexec, effect_of_not_executes hexec]; rfl
  | true =>
    have hfault (f : OperatorFault) : (s.effect source).failure ≠ some (.fault f) := by
      rw [effect_of_executes hexec]
      exact Run.failure_ne_fault (fun _ hmem => Program.operable_of_mem_statements hmem) _ f
    unfold raised
    split
    · assumption
    · rename_i hnot
      cases hfailure : (s.effect source).failure with
      | none => rfl
      | some failure =>
        cases failure with
        | error e => exact absurd hfailure (hnot e)
        | fault f => exact absurd hfailure (hfault f)

end Executes

/-- A source that is not executed is shown and reported. -/
theorem run_of_not_executes {s : Session} {source : String} (h : s.executes source = false) :
    s.run source = ((s.write (s.dumps source)).reportSyntax (faults source), none) := by
  have hknown : (s.reportSyntax (faults source)).diagnostics.hadSyntaxError = true := by
    simpa only [executes, Bool.not_eq_false'] using h
  have hdumps : s.dumps source =
      if s.options.dumpTokens then (scan source).tokens.map Token.text else [] := by
    rw [dumps, h, Bool.false_and, if_neg Bool.false_ne_true, List.append_nil]
  rw [hdumps]
  exact if_pos hknown

/-- A source that is executed is shown, and its statements are run. -/
theorem run_of_executes {s : Session} {source : String} (h : s.executes source = true) :
    s.run source = (s.write (s.dumps source)).runStatements (readable source) := by
  obtain ⟨hclear, hfaults⟩ := executes_iff.mp h
  have hdumps : s.write (s.dumps source) =
      (s.write (if s.options.dumpTokens then (scan source).tokens.map Token.text else [])).write
        (if s.options.dumpTrees then (readable source).map Stmt.text else []) := by
    simp only [dumps, h, Bool.true_and, write_eq, List.append_assoc]
  unfold faults at hfaults
  rw [hdumps, run]
  simp only [hfaults]
  exact if_neg (ne_true_of_eq_false hclear)

/-- **The session after a run.** -/
theorem run_fst_eq (s : Session) (source : String) :
    (s.run source).1 =
      { options := s.options
        globals := (s.effect source).env
        output := s.output ++ (s.dumps source ++ (s.effect source).output)
        diagnostics :=
          { messages := s.diagnostics.messages ++
              ((faults source).map SyntaxError.text ++
                (s.raised source).toList.map RuntimeError.text)
            hadSyntaxError := s.diagnostics.hadSyntaxError || !(faults source).isEmpty
            hadRuntimeError := s.diagnostics.hadRuntimeError || (s.raised source).isSome } } := by
  cases hexec : s.executes source with
  | false =>
    rw [run_of_not_executes hexec, raised_of_not_executes hexec, effect_of_not_executes hexec]
    simp [write_eq, reportSyntax, Diagnostics.foldl_reportSyntax]
  | true =>
    have hfailure := s.failure_effect source
    rw [effect_of_executes hexec] at hfailure ⊢
    rw [run_of_executes hexec, runStatements_eq_finish, finish]
    simp only [write_eq, hfailure, (executes_iff.mp hexec).2]
    cases s.raised source with
    | none => simp
    | some e => simp [reportRuntime, Reporter.reportRuntime, Diagnostics.reportRuntime]

/-- The session after a run without dumps. -/
theorem run_fst {s : Session} (hoptions : s.options = {}) (source : String) :
    (s.run source).1 =
      { options := s.options
        globals := (s.effect source).env
        output := s.output ++ (s.effect source).output
        diagnostics :=
          { messages := s.diagnostics.messages ++
              ((faults source).map SyntaxError.text ++
                (s.raised source).toList.map RuntimeError.text)
            hadSyntaxError := s.diagnostics.hadSyntaxError || !(faults source).isEmpty
            hadRuntimeError := s.diagnostics.hadRuntimeError || (s.raised source).isSome } } := by
  have hdumps : s.dumps source = [] := by simp [dumps, hoptions]
  rw [run_fst_eq, hdumps, List.nil_append]

end Session
end LoxLang
