import Mathlib.Order.Bounds.Defs
import LoxLang.Session

/-! # A run is its longest succeeding prefix

A session can run one statement, and is told whether it fails, or it can run a whole list
of them.  A statement that fails leaves the session as it is (`eq_of_runStatement_fails`).
So a run of a list does what its statements do one at a time up to the first that fails,
which leaves no trace but its failure, and those behind it are not run
(`runs_longest_succeeding_prefix`).  That is so for every reporter and every sink.

All that is used of a run is what it does with its first statement
(`runStatements_cons_of_succeeds`, `runStatements_cons_of_fails`); the rest is induction
on the statements.
-/
namespace LoxLang.Session
variable {R O : Type} [Reporter R] [Sink O]

/-! ### One statement -/

/-- **A statement that fails leaves the session as it is**: it has defined nothing and
written no line. -/
theorem eq_of_runStatement_fails {s next : Session R O} {statement : Stmt} {failure : Failure}
    (h : s.runStatement statement = (next, some failure)) : next = s := by
  obtain ⟨hnext, hfailure⟩ := Prod.mk.inj h
  rw [← hnext, Stmt.execute_of_failure hfailure]
  rfl

/-- A statement reports nothing. -/
theorem diagnostics_runStatement (s : Session R O) (statement : Stmt) :
    (s.runStatement statement).1.diagnostics = s.diagnostics := rfl

/-! ### Statements one at a time -/

/-- The session after a statement, if the statement succeeds. -/
def advance? (s : Session R O) (statement : Stmt) : Option (Session R O) :=
  match s.runStatement statement with
  | (next, none) => some next
  | (_, some _) => none

/-- The session after statements that are run one at a time, if all of them succeed. -/
def advanceAll? (s : Session R O) (statements : List Stmt) : Option (Session R O) :=
  statements.foldlM advance? s

/-- The numbers of statements from the first on that succeed when they are run one at a
time. -/
def successes (s : Session R O) (statements : List Stmt) : Set Nat :=
  {n | n ≤ statements.length ∧ (s.advanceAll? (statements.take n)).isSome}

section Advance
variable {s next : Session R O} {statement : Stmt} {failure : Failure}

theorem advanceAll?_cons_of_succeeds (h : s.runStatement statement = (next, none))
    (ss : List Stmt) : s.advanceAll? (statement :: ss) = next.advanceAll? ss := by
  rw [advanceAll?, List.foldlM_cons, advance?, h]
  rfl

theorem advanceAll?_cons_of_fails (h : s.runStatement statement = (next, some failure))
    (ss : List Stmt) : s.advanceAll? (statement :: ss) = none := by
  rw [advanceAll?, List.foldlM_cons, advance?, h]
  rfl

theorem isGreatest_successes_cons_of_succeeds (h : s.runStatement statement = (next, none))
    {ss : List Stmt} {k : Nat} (hk : IsGreatest (next.successes ss) k) :
    IsGreatest (s.successes (statement :: ss)) (k + 1) := by
  obtain ⟨⟨hle, hsome⟩, hgreatest⟩ := hk
  constructor
  · refine ⟨Nat.succ_le_succ hle, ?_⟩
    rwa [List.take_succ_cons, advanceAll?_cons_of_succeeds h]
  · intro n hn
    obtain ⟨hn, hsome⟩ := hn
    cases n with
    | zero => exact Nat.zero_le _
    | succ n =>
      rw [List.take_succ_cons, advanceAll?_cons_of_succeeds h] at hsome
      exact Nat.succ_le_succ (hgreatest ⟨Nat.le_of_succ_le_succ hn, hsome⟩)

theorem isGreatest_successes_cons_of_fails (h : s.runStatement statement = (next, some failure))
    (ss : List Stmt) : IsGreatest (s.successes (statement :: ss)) 0 := by
  constructor
  · exact ⟨Nat.zero_le _, rfl⟩
  · intro n hn
    cases n with
    | zero => exact Nat.le_refl 0
    | succ n =>
      have hsome := hn.2
      rw [List.take_succ_cons, advanceAll?_cons_of_fails h] at hsome
      cases hsome

end Advance

/-! ### Whole runs -/

/-- How a run ends on a failure: a runtime error is reported, an operator fault is handed
back. -/
def halt (s : Session R O) : Failure → Session R O × Option OperatorFault
  | .error e => (s.reportRuntime e, none)
  | .fault f => (s, some f)

section Run
variable {s next : Session R O} {statement : Stmt} {failure : Failure}

/-- A statement that succeeds is run, and then the rest. -/
theorem runStatements_cons_of_succeeds (h : s.runStatement statement = (next, none))
    (ss : List Stmt) : s.runStatements (statement :: ss) = next.runStatements ss := by
  rw [runStatements, h]

/-- A statement that fails ends the run, whatever is behind it. -/
theorem runStatements_cons_of_fails (h : s.runStatement statement = (next, some failure))
    (ss : List Stmt) : s.runStatements (statement :: ss) = s.halt failure := by
  rw [eq_of_runStatement_fails h] at h
  rw [runStatements, h]
  cases failure <;> rfl

/-- **Up to the first failure**, a run does what its statements do one at a time. -/
theorem exists_isGreatest_successes (s : Session R O) (ss : List Stmt) :
    ∃ k done, IsGreatest (s.successes ss) k ∧ s.advanceAll? (ss.take k) = some done ∧
      done.diagnostics = s.diagnostics ∧
      ((k = ss.length ∧ s.runStatements ss = (done, none)) ∨
        ∃ statement failure, ss[k]? = some statement ∧
          done.runStatement statement = (done, some failure) ∧
          s.runStatements ss = done.halt failure) := by
  induction ss generalizing s with
  | nil =>
    refine ⟨0, s, ⟨⟨Nat.le_refl 0, rfl⟩, fun n hn => hn.1⟩, rfl, rfl, ?_⟩
    exact Or.inl ⟨rfl, rfl⟩
  | cons statement ss ih =>
    rcases hrun : s.runStatement statement with ⟨next, _ | failure⟩
    · obtain ⟨k, done, hk, hdone, hdiagnostics, hend⟩ := ih next
      refine ⟨k + 1, done, isGreatest_successes_cons_of_succeeds hrun hk, ?_, ?_, ?_⟩
      · rw [List.take_succ_cons, advanceAll?_cons_of_succeeds hrun, hdone]
      · rw [hdiagnostics, ← diagnostics_runStatement s statement, hrun]
      · rw [runStatements_cons_of_succeeds hrun]
        rcases hend with ⟨rfl, hall⟩ | hfails
        · exact Or.inl ⟨rfl, hall⟩
        · exact Or.inr hfails
    · -- the failing statement has changed nothing, so the run ends where it began
      obtain rfl := eq_of_runStatement_fails hrun
      refine ⟨0, next, isGreatest_successes_cons_of_fails hrun ss, rfl, rfl, ?_⟩
      exact Or.inr ⟨statement, failure, rfl, hrun, runStatements_cons_of_fails hrun ss⟩

/-- **One run behind another.** -/
theorem runStatements_append (s : Session R O) (ss more : List Stmt) :
    s.runStatements (ss ++ more) =
      if (s.advanceAll? ss).isSome then (s.runStatements ss).1.runStatements more
      else s.runStatements ss := by
  induction ss generalizing s with
  | nil => exact (if_pos rfl).symm
  | cons statement ss ih =>
    rw [List.cons_append]
    rcases hrun : s.runStatement statement with ⟨next, _ | failure⟩
    · rw [runStatements_cons_of_succeeds hrun, runStatements_cons_of_succeeds hrun,
        advanceAll?_cons_of_succeeds hrun, ih]
    · rw [runStatements_cons_of_fails hrun, runStatements_cons_of_fails hrun,
        advanceAll?_cons_of_fails hrun]
      rfl

end Run

/-- **A run is its longest succeeding prefix.**  A statement that fails leaves a session
as it is.  Let `k` be the greatest number of statements from the first on that succeed
when they are run one at a time, and `done` the session after them, in which nothing has
been reported that was not before.  Then the run ends in `done` if there are no more
statements.  Otherwise the next statement fails in `done`: a runtime error is reported
once, and an operator fault is handed back and not reported.  A run of statements and
more is a run of the statements, and, only if all of them succeed, a run of the others in
the session that leaves. -/
theorem runs_longest_succeeding_prefix (s : Session R O) (ss : List Stmt) :
    (∀ statement next failure, s.runStatement statement = (next, some failure) → next = s) ∧
    (∃ k done,
      IsGreatest {n | n ≤ ss.length ∧ (s.advanceAll? (ss.take n)).isSome} k ∧
      s.advanceAll? (ss.take k) = some done ∧ done.diagnostics = s.diagnostics ∧
      ((k = ss.length ∧ s.runStatements ss = (done, none)) ∨
        (∃ statement e, ss[k]? = some statement ∧
          done.runStatement statement = (done, some (.error e)) ∧
          s.runStatements ss =
            ({ done with diagnostics := Reporter.reportRuntime done.diagnostics e }, none)) ∨
        ∃ statement f, ss[k]? = some statement ∧
          done.runStatement statement = (done, some (.fault f)) ∧
          s.runStatements ss = (done, some f))) ∧
    ∀ more, s.runStatements (ss ++ more) =
      if (s.advanceAll? ss).isSome then (s.runStatements ss).1.runStatements more
      else s.runStatements ss := by
  refine ⟨fun _ _ _ => eq_of_runStatement_fails, ?_, s.runStatements_append ss⟩
  obtain ⟨k, done, hk, hdone, hdiagnostics, hend⟩ := s.exists_isGreatest_successes ss
  refine ⟨k, done, hk, hdone, hdiagnostics, ?_⟩
  rcases hend with hall | ⟨statement, failure, hstatement, hfails, hrun⟩
  · exact Or.inl hall
  · cases failure with
    | error e => exact Or.inr (Or.inl ⟨statement, e, hstatement, hfails, hrun⟩)
    | fault f => exact Or.inr (Or.inr ⟨statement, f, hstatement, hfails, hrun⟩)

/-- The declaration in the middle of `print nil; var a = b; print nil;` fails.  It defines
nothing, the line before it stays, and what is behind it is not run, however long. -/
theorem runs_longest_succeeding_prefix_undefined :
    let a : Token := ⟨.identifier, "a", none, 1⟩
    let b : Token := ⟨.identifier, "b", none, 1⟩
    let e : RuntimeError := ⟨.undefinedVariable, b⟩
    let ss : List Stmt :=
      [.print (.literal .nil), .declare a (some (.var b)), .print (.literal .nil)]
    let s : Session := { output := ["nil"] }
    let done : Session := { output := ["nil"], diagnostics := ⟨[e.text], false, true⟩ }
    (∃ next, s.runStatement (.declare a (some (.var b))) = (next, some (.error e)) ∧ next = s) ∧
      runStatements ({} : Session) ss = (done, none) ∧
      ∀ more, runStatements ({} : Session) (ss ++ more) = (done, none) := by
  intro a b e ss s done
  have hfails : s.runStatement (.declare a (some (.var b))) = (s, some (.error e)) := rfl
  have hrun : runStatements ({} : Session) ss = (done, none) := rfl
  have hstops : ¬ (advanceAll? ({} : Session) ss).isSome = true := nofun
  obtain ⟨hunchanged, -, -⟩ := runs_longest_succeeding_prefix s ss
  obtain ⟨-, -, happend⟩ := runs_longest_succeeding_prefix ({} : Session) ss
  refine ⟨⟨s, hfails, hunchanged _ _ _ hfails⟩, hrun, ?_⟩
  intro more
  rw [happend more, if_neg hstops, hrun]

end LoxLang.Session
