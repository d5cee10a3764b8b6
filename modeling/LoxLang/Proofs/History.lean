import LoxLang.Proofs.SessionRuns

/-! # Histories of a session

A session is used step by step: sources are run, and between them syntax errors are
forgiven.  A history is the list of these steps, and `Session.replay` is the session
that a history leads to.

What a run does depends on the steps before it only through the variables and through
one flag, which says whether a fault is still to be forgiven.  `Pending` says the same
of the history itself.  A run that is not executed changes nothing but that flag and
the messages, so the history that keeps only the executed runs leads to a session that
differs in no other way (`Shadows`).  The step lemmas below say it of one step, and
`rejected_runs_leave_no_trace` of every history.
-/
namespace LoxLang

/-- What can be done with a session. -/
inductive Step where
  /-- Runs a source. -/
  | run (source : String)
  /-- Forgives the syntax errors so far. -/
  | forgive
deriving Repr, DecidableEq

/-- Something that is reported. -/
inductive Report where
  /-- A fault of a source. -/
  | fault (e : SyntaxError)
  /-- A runtime error. -/
  | failure (e : RuntimeError)
deriving Repr, DecidableEq

namespace Report

/-- The message of a report. -/
def text : Report → String
  | fault e => e.text
  | failure e => e.text

/-- The runtime error of a report. -/
def runtime? : Report → Option RuntimeError
  | fault _ => none
  | failure e => some e

end Report

/-- Some run since faults were last forgiven has faults. -/
def Pending (history : List Step) : Prop :=
  ∃ earlier source later, history = earlier ++ .run source :: later ∧ .forgive ∉ later ∧
    faults source ≠ []

section Pending
variable {history : List Step} {source : String}

theorem not_pending_nil : ¬ Pending [] := by
  rintro ⟨earlier, source, later, h, -⟩
  cases earlier <;> cases h

theorem pending_forgive_cons : Pending (.forgive :: history) ↔ Pending history := by
  constructor
  · rintro ⟨earlier, source, later, h, hlater, hfaults⟩
    cases earlier with
    | nil => cases h
    | cons step earlier => exact ⟨earlier, source, later, (List.cons.inj h).2, hlater, hfaults⟩
  · rintro ⟨earlier, source, later, rfl, hlater, hfaults⟩
    exact ⟨.forgive :: earlier, source, later, rfl, hlater, hfaults⟩

theorem pending_run_cons :
    Pending (.run source :: history) ↔
      Pending history ∨ faults source ≠ [] ∧ .forgive ∉ history := by
  constructor
  · rintro ⟨earlier, source', later, h, hlater, hfaults⟩
    cases earlier with
    | nil =>
      cases h
      exact Or.inr ⟨hfaults, hlater⟩
    | cons step earlier =>
      exact Or.inl ⟨earlier, source', later, (List.cons.inj h).2, hlater, hfaults⟩
  · rintro (⟨earlier, source', later, rfl, hlater, hfaults⟩ | ⟨hfaults, hlater⟩)
    · exact ⟨.run source :: earlier, source', later, rfl, hlater, hfaults⟩
    · exact ⟨[], source, history, rfl, hlater, hfaults⟩

end Pending

namespace Session

/-- The session after a step. -/
def step (s : Session) : Step → Session
  | .run source => (s.run source).1
  | .forgive => s.forgive

/-- The session after a history. -/
def replay (s : Session) (history : List Step) : Session := history.foldl step s

@[simp] theorem replay_nil (s : Session) : s.replay [] = s := rfl

@[simp] theorem replay_cons (s : Session) (x : Step) (history : List Step) :
    s.replay (x :: history) = (s.step x).replay history := rfl

theorem options_step {s : Session} (hoptions : s.options = {}) (x : Step) :
    (s.step x).options = {} := by
  cases x with
  | run source => rw [step, run_fst hoptions, hoptions]
  | forgive => exact hoptions

/-! ### What the runs of a history give -/

section Collect
variable {α : Type} (f : Session → String → List α)

/-- All that `f` makes of the runs of a history, each in the session it meets. -/
def collect : Session → List Step → List α
  | _, [] => []
  | s, .run source :: history => f s source ++ collect (s.run source).1 history
  | s, .forgive :: history => collect s.forgive history

/-- What is collected comes from some run. -/
theorem mem_collect {s : Session} {history : List Step} {a : α} :
    a ∈ collect f s history ↔
      ∃ earlier source later, history = earlier ++ .run source :: later ∧
        a ∈ f (s.replay earlier) source := by
  induction history generalizing s with
  | nil =>
    constructor
    · intro h
      cases h
    · rintro ⟨earlier, source, later, h, -⟩
      cases earlier <;> cases h
  | cons x history ih =>
    have hcons : (∃ earlier source later, x :: history = earlier ++ .run source :: later ∧
          a ∈ f (s.replay earlier) source) ↔
        (∃ source, x = .run source ∧ a ∈ f s source) ∨ a ∈ collect f (s.step x) history := by
      rw [ih]
      constructor
      · rintro ⟨earlier, source, later, h, ha⟩
        cases earlier with
        | nil =>
          cases h
          exact Or.inl ⟨source, rfl, ha⟩
        | cons y earlier =>
          cases h
          exact Or.inr ⟨earlier, source, later, rfl, ha⟩
      · rintro (⟨source, rfl, ha⟩ | ⟨earlier, source, later, rfl, ha⟩)
        · exact ⟨[], source, history, rfl, ha⟩
        · exact ⟨x :: earlier, source, later, rfl, ha⟩
    rw [hcons]
    cases x with
    | run source =>
      rw [collect, List.mem_append]
      simp [step]
    | forgive =>
      rw [collect]
      simp [step]

end Collect

/-- The sources that are executed, in order. -/
def executed : Session → List Step → List String :=
  collect fun s source => if s.executes source then [source] else []

/-- The runtime errors that are raised, in order. -/
def errorsRaised : Session → List Step → List RuntimeError :=
  collect fun s source => (s.raised source).toList

/-- All that is reported, in order. -/
def reports : Session → List Step → List Report :=
  collect fun s source =>
    (faults source).map .fault ++ (s.raised source).toList.map .failure

section Reports
variable {s : Session} (hoptions : s.options = {})
include hoptions

/-- The messages of a session are those of its reports. -/
theorem messages_replay (history : List Step) :
    (s.replay history).diagnostics.messages =
      s.diagnostics.messages ++ (s.reports history).map Report.text := by
  induction history generalizing s with
  | nil => simp [reports, collect]
  | cons x history ih =>
    rw [replay_cons, ih (options_step hoptions x)]
    cases x with
    | run source =>
      have hmessages : (s.step (.run source)).diagnostics.messages =
          s.diagnostics.messages ++ ((faults source).map SyntaxError.text ++
            (s.raised source).toList.map RuntimeError.text) := by
        rw [step, run_fst hoptions]
      rw [hmessages]
      simp [reports, collect, step, Function.comp_def, Report.text]
    | forgive => rfl

/-- **A fault is to be forgiven iff one is pending**, or was when the history began
and nothing has been forgiven since. -/
theorem hadSyntaxError_replay (history : List Step) :
    (s.replay history).diagnostics.hadSyntaxError = true ↔
      Pending history ∨ s.diagnostics.hadSyntaxError = true ∧ .forgive ∉ history := by
  induction history generalizing s with
  | nil => simp [not_pending_nil]
  | cons x history ih =>
    rw [replay_cons, ih (options_step hoptions x)]
    cases x with
    | run source =>
      have hflag : (s.step (.run source)).diagnostics.hadSyntaxError = true ↔
          s.diagnostics.hadSyntaxError = true ∨ faults source ≠ [] := by
        rw [step, run_fst hoptions]
        simp
      rw [hflag, pending_run_cons, or_and_right, or_assoc]
      simp [or_comm]
    | forgive =>
      have hflag : (s.step .forgive).diagnostics.hadSyntaxError = false := rfl
      rw [hflag, pending_forgive_cons]
      simp

/-- A runtime error is known if one was known before or is raised. -/
theorem hadRuntimeError_replay (history : List Step) :
    (s.replay history).diagnostics.hadRuntimeError =
      (s.diagnostics.hadRuntimeError || !(s.errorsRaised history).isEmpty) := by
  induction history generalizing s with
  | nil => simp [errorsRaised, collect]
  | cons x history ih =>
    rw [replay_cons, ih (options_step hoptions x)]
    cases x with
    | run source =>
      have hflag : (s.step (.run source)).diagnostics.hadRuntimeError =
          (s.diagnostics.hadRuntimeError || (s.raised source).isSome) := by
        rw [step, run_fst hoptions]
      have hraised : s.errorsRaised (.run source :: history) =
          (s.raised source).toList ++ (s.step (.run source)).errorsRaised history := rfl
      rw [hflag, hraised]
      cases s.raised source <;> simp
    | forgive => rfl

end Reports

/-! ### Only executed runs count -/

/-- The session `t` is `s` but for what syntax errors leave behind: the flag and their
messages. -/
structure Shadows (t s : Session) : Prop where
  globals : t.globals = s.globals
  output : t.output = s.output
  hadRuntimeError : t.diagnostics.hadRuntimeError = s.diagnostics.hadRuntimeError
  clear : t.diagnostics.hadSyntaxError = false
  options : t.options = {}
  options_shadowed : s.options = {}

namespace Shadows
variable {s t : Session} {source : String}

/-- **Step, a run that is executed.**  The shadow executes it too, and the same
happens. -/
theorem run_executed (h : t.Shadows s) (hexec : s.executes source = true) :
    (t.run source).1.Shadows (s.run source).1 ∧ t.raised source = s.raised source := by
  have hfaults := (executes_iff.mp hexec).2
  have hexec' : t.executes source = true := executes_iff.mpr ⟨h.clear, hfaults⟩
  have heffect : t.effect source = s.effect source := by
    rw [effect_of_executes hexec, effect_of_executes hexec', h.globals]
  have hraised : t.raised source = s.raised source := by rw [raised, raised, heffect]
  refine ⟨?_, hraised⟩
  rw [run_fst h.options, run_fst h.options_shadowed, heffect, hraised, hfaults]
  exact
    { globals := rfl
      output := by rw [h.output]
      hadRuntimeError := by rw [h.hadRuntimeError]
      clear := by simp [h.clear]
      options := h.options
      options_shadowed := h.options_shadowed }

/-- **Step, a run that is not executed.**  The shadow does not notice it. -/
theorem run_rejected (h : t.Shadows s) (hexec : s.executes source = false) :
    t.Shadows (s.run source).1 := by
  rw [run_fst h.options_shadowed, effect_of_not_executes hexec, raised_of_not_executes hexec]
  exact
    { globals := h.globals
      output := by simp [h.output]
      hadRuntimeError := by simp [h.hadRuntimeError]
      clear := h.clear
      options := h.options
      options_shadowed := h.options_shadowed }

/-- **Step, forgiving.**  The shadow has nothing to be forgiven. -/
theorem forgive (h : t.Shadows s) : t.Shadows s.forgive :=
  { h with }

/-- **The executed runs of a history.**  By themselves they lead from a shadow to a
shadow, and report the runtime errors of the history and nothing else. -/
theorem replay_executed (h : t.Shadows s) (history : List Step) :
    (t.replay ((s.executed history).map Step.run)).Shadows (s.replay history) ∧
      t.reports ((s.executed history).map Step.run) =
        (s.errorsRaised history).map Report.failure := by
  induction history generalizing s t with
  | nil => exact ⟨h, rfl⟩
  | cons x history ih =>
    cases x with
    | forgive => exact ih h.forgive
    | run source =>
      cases hexec : s.executes source with
      | false =>
        have hkept : s.executed (.run source :: history) = (s.run source).1.executed history := by
          simp [executed, collect, hexec]
        have hraised : s.errorsRaised (.run source :: history) =
            (s.run source).1.errorsRaised history := by
          simp [errorsRaised, collect, raised_of_not_executes hexec]
        rw [hkept, hraised]
        exact ih (h.run_rejected hexec)
      | true =>
        have hkept : s.executed (.run source :: history) =
            source :: (s.run source).1.executed history := by
          simp [executed, collect, hexec]
        obtain ⟨hnext, hsame⟩ := h.run_executed hexec
        obtain ⟨hshadows, hreports⟩ := ih hnext
        rw [hkept, List.map_cons]
        refine ⟨hshadows, ?_⟩
        rw [reports, collect, hsame, (executes_iff.mp hexec).2]
        exact (congrArg _ hreports).trans (by simp [errorsRaised, collect])

end Shadows

/-- The runtime errors among the reports are those that were raised. -/
theorem filterMap_reports (s : Session) (history : List Step) :
    (s.reports history).filterMap Report.runtime? = s.errorsRaised history := by
  induction history generalizing s with
  | nil => rfl
  | cons x history ih =>
    cases x with
    | forgive => exact ih s.forgive
    | run source =>
      have hrest := ih (s.run source).1
      simp only [reports, errorsRaised] at hrest
      simp [reports, errorsRaised, collect, hrest, Function.comp_def, Report.runtime?]

theorem errorsRaised_ne_nil_iff {s : Session} {history : List Step} :
    s.errorsRaised history ≠ [] ↔
      ∃ earlier source later e, history = earlier ++ .run source :: later ∧
        (s.replay earlier).executes source = true ∧
        (s.replay earlier).raised source = some e := by
  constructor
  · intro hne
    obtain ⟨e, he⟩ := List.exists_mem_of_ne_nil _ hne
    obtain ⟨earlier, source, later, hsplit, hmem⟩ := (mem_collect _).mp he
    have hraised : (s.replay earlier).raised source = some e := by simpa using hmem
    refine ⟨earlier, source, later, e, hsplit, ?_, hraised⟩
    cases hexec : (s.replay earlier).executes source with
    | true => rfl
    | false =>
      -- a run that is not executed raises nothing
      rw [raised_of_not_executes hexec] at hraised
      cases hraised
  · rintro ⟨earlier, source, later, e, hsplit, -, hraised⟩
    have he : e ∈ s.errorsRaised history :=
      (mem_collect _).mpr ⟨earlier, source, later, hsplit, by simp [hraised]⟩
    exact List.ne_nil_of_mem he

end Session

/-- Some run of a history on a fresh session is executed and raises a runtime
error. -/
def RaisesError (history : List Step) : Prop :=
  ∃ earlier source later e, history = earlier ++ .run source :: later ∧
    (Session.replay {} earlier).executes source = true ∧
    (Session.replay {} earlier).raised source = some e

section Fresh
variable (history : List Step)

theorem hadSyntaxError_iff_pending :
    (Session.replay {} history).diagnostics.hadSyntaxError = true ↔ Pending history := by
  have hflag := Session.hadSyntaxError_replay (s := {}) rfl history
  simpa using hflag

theorem hadRuntimeError_iff_raisesError :
    (Session.replay {} history).diagnostics.hadRuntimeError = true ↔ RaisesError history := by
  have hflag := Session.hadRuntimeError_replay (s := {}) rfl history
  rw [hflag, RaisesError, ← Session.errorsRaised_ne_nil_iff]
  simp

/-- **A run is executed iff its source has no faults and none is pending.** -/
theorem executes_replay_iff (source : String) :
    (Session.replay {} history).executes source = true ↔
      faults source = [] ∧ ¬ Pending history := by
  rw [Session.executes_iff, ← hadSyntaxError_iff_pending, Bool.not_eq_true, and_comm]

end Fresh

/-- **Rejected runs leave no trace.**  Take any history of a fresh session that dumps
nothing.  A run of it is executed iff its source has no faults and none is pending
from the runs since faults were last forgiven.  The history that keeps only the
executed runs leads to the same variables and output and to the same runtime errors,
in order and as a flag.  A syntax error is known iff a fault is pending, a runtime
error iff an executed run raised one, and the exit code is that of the former before
that of the latter. -/
theorem rejected_runs_leave_no_trace (history : List Step) :
    let s := Session.replay {} history
    let kept := (Session.executed {} history).map Step.run
    let t := Session.replay {} kept
    (∀ earlier source later, history = earlier ++ .run source :: later →
      ((Session.replay {} earlier).executes source = true ↔
        faults source = [] ∧ ¬ Pending earlier)) ∧
    (t.globals = s.globals ∧ t.output = s.output ∧
      t.diagnostics.hadRuntimeError = s.diagnostics.hadRuntimeError) ∧
    (s.diagnostics.messages = (Session.reports {} history).map Report.text ∧
      t.diagnostics.messages = (Session.reports {} kept).map Report.text ∧
      (Session.reports {} kept).filterMap Report.runtime? =
        (Session.reports {} history).filterMap Report.runtime?) ∧
    (s.diagnostics.hadSyntaxError = true ↔ Pending history) ∧
    (s.diagnostics.hadRuntimeError = true ↔ RaisesError history) ∧
    (Pending history → s.exitCode? = some 65) ∧
    (¬ Pending history → RaisesError history → s.exitCode? = some 70) ∧
    (¬ Pending history → ¬ RaisesError history → s.exitCode? = none) := by
  intro s kept t
  have hfaulty : s.diagnostics.hadSyntaxError = true ↔ Pending history :=
    hadSyntaxError_iff_pending history
  have hruntime : s.diagnostics.hadRuntimeError = true ↔ RaisesError history :=
    hadRuntimeError_iff_raisesError history
  have hfresh : Session.Shadows {} {} := ⟨rfl, rfl, rfl, rfl, rfl, rfl⟩
  obtain ⟨hshadows, hreports⟩ := hfresh.replay_executed history
  refine ⟨fun earlier source _ _ => executes_replay_iff earlier source,
    ⟨hshadows.globals, hshadows.output, hshadows.hadRuntimeError⟩, ⟨?_, ?_, ?_⟩,
    hfaulty, hruntime, ?_, ?_, ?_⟩
  · exact Session.messages_replay rfl history
  · exact Session.messages_replay rfl kept
  · rw [hreports, Session.filterMap_reports, List.filterMap_map]
    exact List.filterMap_some
  · intro hpending
    rw [Session.exitCode?_eq, if_pos (hfaulty.mpr hpending)]
    rfl
  · intro hpending hraises
    rw [Session.exitCode?_eq, if_neg (mt hfaulty.mp hpending), if_pos (hruntime.mpr hraises)]
    rfl
  · intro hpending hraises
    rw [Session.exitCode?_eq, if_neg (mt hfaulty.mp hpending), if_neg (mt hruntime.mp hraises)]

/-- The declaration stands before a fault and is lost with it; the same `print` is
refused first, and after the fault is forgiven it is executed. -/
theorem rejected_runs_leave_no_trace_forgiven :
    let earlier : List Step := [.run "var a = nil; print ;", .run "print a;", .forgive]
    let history := earlier ++ [.run "print a;"]
    history = earlier ++ .run "print a;" :: [] ∧
      ((Session.replay {} earlier).executes "print a;" = true ↔
        faults "print a;" = [] ∧ ¬ Pending earlier) ∧
      Session.executed {} history = ["print a;"] ∧
      (Session.replay {} [.run "print a;"]).globals = (Session.replay {} history).globals ∧
      (Session.replay {} history).diagnostics.messages =
        ["[line 1] Error at ';': Expect expression.", "Undefined variable 'a'.\n[line 1]"] := by
  intro earlier history
  have hkept : Session.executed {} history = ["print a;"] := by decide +kernel
  obtain ⟨hexecutes, ⟨hglobals, -, -⟩, -⟩ := rejected_runs_leave_no_trace history
  rw [hkept] at hglobals
  exact ⟨rfl, hexecutes earlier "print a;" [] rfl, hkept, hglobals, by decide +kernel⟩

end LoxLang
