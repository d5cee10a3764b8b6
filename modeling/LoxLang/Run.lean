import LoxLang.Eval

/-! # Running statements

Executing a statement gives the variables after it, the lines it writes and its failure,
if it fails.  It evaluates its expression before it does anything else, so one that fails
has changed nothing and written nothing (`Stmt.execute_of_failure`).  A run goes through
its statements in order and stops at the first that fails; what the earlier ones did
stays.
-/
namespace LoxLang

/-- How a statement ends, or a run of statements. -/
structure Run where
  /-- The variables at the end. -/
  env : Environment
  /-- The lines written. -/
  output : List String
  /-- The failure that stopped it, if one did. -/
  failure : Option Failure
deriving Repr, DecidableEq

/-- Executes a statement. -/
def Stmt.execute (env : Environment) : Stmt → Run
  | expression expr =>
    match expr.eval env with
    | .ok _ => ⟨env, [], none⟩
    | .error f => ⟨env, [], some f⟩
  | print expr =>
    match expr.eval env with
    | .ok value => ⟨env, [value.text], none⟩
    | .error f => ⟨env, [], some f⟩
  | declare name none => ⟨env.define name.lexeme .nil, [], none⟩
  | declare name (some initial) =>
    match initial.eval env with
    | .ok value => ⟨env.define name.lexeme value, [], none⟩
    | .error f => ⟨env, [], some f⟩

/-- Runs statements from an environment. -/
def Run.of (env : Environment) : List Stmt → Run
  | [] => ⟨env, [], none⟩
  | s :: ss =>
    let first := s.execute env
    match first.failure with
    | some _ => first
    | none =>
      let rest := of first.env ss
      { rest with output := first.output ++ rest.output }

/-! ### One statement -/

namespace Stmt
variable {env : Environment} {s : Stmt} {f : Failure}

/-- **A statement succeeds, or it fails with its expression** and leaves no trace but the
failure. -/
theorem execute_cases (s : Stmt) (env : Environment) :
    (∃ env' lines, s.execute env = ⟨env', lines, none⟩ ∧
        ∀ e ∈ s.expr?, ∀ f, e.eval env ≠ .error f) ∨
      ∃ e ∈ s.expr?, ∃ f, e.eval env = .error f ∧ s.execute env = ⟨env, [], some f⟩ := by
  cases s with
  | expression expr | print expr =>
    simp only [execute]
    cases heval : expr.eval env with
    | ok value =>
      refine .inl ⟨_, _, rfl, ?_⟩
      rintro _ ⟨⟩ f hf
      rw [heval] at hf
      cases hf
    | error f => exact .inr ⟨expr, rfl, f, heval, rfl⟩
  | declare name initial =>
    cases initial with
    | none => exact .inl ⟨_, _, rfl, nofun⟩
    | some initial =>
      simp only [execute]
      cases heval : initial.eval env with
      | ok value =>
        refine .inl ⟨_, _, rfl, ?_⟩
        rintro _ ⟨⟩ f hf
        rw [heval] at hf
        cases hf
      | error f => exact .inr ⟨initial, rfl, f, heval, rfl⟩

/-- **A statement that fails changes nothing and writes nothing.** -/
theorem execute_of_failure (h : (s.execute env).failure = some f) :
    s.execute env = ⟨env, [], some f⟩ := by
  rcases s.execute_cases env with ⟨env', lines, hexec, -⟩ | ⟨e, -, f', -, hexec⟩
  · rw [hexec] at h
    cases h
  · rw [hexec] at h ⊢
    rw [← h]

/-- A statement fails iff the evaluation of its expression does. -/
theorem failure_execute_iff :
    (s.execute env).failure = some f ↔ ∃ e ∈ s.expr?, e.eval env = .error f := by
  rcases s.execute_cases env with ⟨env', lines, hexec, hsucceeds⟩ | ⟨e, he, f', heval, hexec⟩
  · rw [hexec]
    refine iff_of_false nofun ?_
    rintro ⟨e, he, heval⟩
    exact hsucceeds e he f heval
  · rw [hexec]
    constructor
    · rintro ⟨⟩
      exact ⟨e, he, heval⟩
    · rintro ⟨e', he', heval'⟩
      obtain rfl : e = e' := Option.mem_unique he he'
      rw [heval] at heval'
      cases heval'
      rfl

end Stmt

/-! ### Statements one after another -/

namespace Run
variable {env env' : Environment} {s : Stmt} {lines : List String} {f : Failure}

@[simp] theorem of_nil (env : Environment) : of env [] = ⟨env, [], none⟩ := rfl

/-- A statement that succeeds comes before the rest of the run. -/
theorem of_cons_ok (h : s.execute env = ⟨env', lines, none⟩) (ss : List Stmt) :
    of env (s :: ss) = { of env' ss with output := lines ++ (of env' ss).output } := by
  simp only [of, h]

/-- A statement that fails ends the run and leaves no trace but its failure. -/
theorem of_cons_error (h : (s.execute env).failure = some f) (ss : List Stmt) :
    of env (s :: ss) = ⟨env, [], some f⟩ := by
  simp only [of, Stmt.execute_of_failure h]

/-- **One program behind another.** -/
theorem of_append {ss : List Stmt} (h : (of env ss).failure = none) (more : List Stmt) :
    of env (ss ++ more) =
      { of (of env ss).env more with
        output := (of env ss).output ++ (of (of env ss).env more).output } := by
  induction ss generalizing env with
  | nil => rfl
  | cons s ss ih =>
    rcases s.execute_cases env with ⟨env', lines, hexec, -⟩ | ⟨e, -, f, -, hexec⟩
    · rw [of_cons_ok hexec] at h ⊢
      rw [List.cons_append, of_cons_ok hexec, ih h, List.append_assoc]
    · rw [of_cons_error (by rw [hexec])] at h
      cases h

/-- A run fails at the first statement that does, in the environment that those before
it leave. -/
theorem failure_eq_some_iff {ss : List Stmt} :
    (of env ss).failure = some f ↔
      ∃ earlier s later, ss = earlier ++ s :: later ∧ (of env earlier).failure = none ∧
        (s.execute (of env earlier).env).failure = some f := by
  constructor
  · intro h
    induction ss generalizing env with
    | nil => cases h
    | cons s ss ih =>
      rcases s.execute_cases env with ⟨env', lines, hexec, -⟩ | ⟨e, -, f', -, hexec⟩
      · rw [of_cons_ok hexec] at h
        obtain ⟨earlier, s', later, rfl, hquiet, hfails⟩ := ih h
        refine ⟨s :: earlier, s', later, rfl, ?_, ?_⟩
        · rw [of_cons_ok hexec]
          exact hquiet
        · rw [of_cons_ok hexec]
          exact hfails
      · have hfailure : (s.execute env).failure = some f' := by rw [hexec]
        rw [of_cons_error hfailure] at h
        exact ⟨[], s, ss, rfl, rfl, hfailure.trans h⟩
  · rintro ⟨earlier, s, later, rfl, hquiet, hfails⟩
    rw [of_append hquiet]
    show (of (of env earlier).env (s :: later)).failure = some f
    rw [of_cons_error hfails]

end Run
end LoxLang
