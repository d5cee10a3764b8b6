import LoxLang.Run
import LoxLang.Proofs.Derivation

/-! # Variables are declared before they are read

A run binds names by its declarations and in no other way, and never unbinds one.  So what
is bound when a statement is reached can be read off the statements before it
(`Run.contains_of`).

An evaluation that fails for want of a variable names one that it reads and that is not
bound (`Expr.eval_undefined`).  Together this gives the main statement,
`variables_are_declared_before_use`: a run that stops at an undefined variable stops at one
that nothing has declared, and a program in which each variable is declared further up, or
was bound before, never does.
-/
namespace LoxLang

/-! ### Reading and declaring -/

/-- The variables that an expression reads, from left to right. -/
def Expr.reads : Expr → List Token
  | literal _ => []
  | var name => [name]
  | unary _ operand => operand.reads
  | binary left _ right => left.reads ++ right.reads
  | group inner => inner.reads

namespace Stmt

/-- The variables that a statement reads. -/
def reads (s : Stmt) : List Token := (s.expr?.map Expr.reads).getD []

/-- The name that a statement declares. -/
def declared? : Stmt → Option String
  | expression _ => none
  | print _ => none
  | declare name _ => some name.lexeme

/-- The names that statements declare. -/
def declaredNames (ss : List Stmt) : List String := ss.filterMap declared?

/-- Every variable that one of the statements reads is bound before all of them or declared
by one further up. -/
def DeclaredBeforeUse (env : Environment) (ss : List Stmt) : Prop :=
  ∀ earlier s later, ss = earlier ++ s :: later → ∀ t ∈ s.reads,
    env.contains t.lexeme = true ∨ t.lexeme ∈ declaredNames earlier

end Stmt

/-- One computation behind another fails where either does. -/
theorem bind_eq_error_iff {α β : Type} {r : Except Failure α} {next : α → Except Failure β}
    {f : Failure} :
    (r >>= next) = .error f ↔ r = .error f ∨ ∃ a, r = .ok a ∧ next a = .error f := by
  cases r <;> simp [bind, Except.bind]

/-! ### What is bound -/

theorem Environment.contains_define (env : Environment) (name other : String) (value : Value) :
    (env.define name value).contains other = true ↔
      env.contains other = true ∨ other = name := by
  rw [contains_eq_isSome_get?, contains_eq_isSome_get?, get?_define]
  by_cases h : other = name <;> simp [h]

/-- A statement that succeeds defines the name that it declares, and nothing else. -/
theorem Stmt.env_execute {env : Environment} {s : Stmt} (h : (s.execute env).failure = none) :
    (s.declared? = none ∧ (s.execute env).env = env) ∨
      ∃ name value, s.declared? = some name ∧ (s.execute env).env = env.define name value := by
  cases s with
  | expression expr | print expr =>
    simp only [execute] at h ⊢
    cases heval : expr.eval env with
    | ok value => exact .inl ⟨rfl, rfl⟩
    | error f =>
      rw [heval] at h
      cases h
  | declare name initial =>
    cases initial with
    | none => exact .inr ⟨name.lexeme, .nil, rfl, rfl⟩
    | some initial =>
      simp only [execute] at h ⊢
      cases heval : initial.eval env with
      | ok value => exact .inr ⟨name.lexeme, value, rfl, rfl⟩
      | error f =>
        rw [heval] at h
        cases h

/-- **A statement binds what it declares.** -/
theorem Stmt.contains_execute {env : Environment} {s : Stmt} (h : (s.execute env).failure = none)
    (name : String) :
    (s.execute env).env.contains name = true ↔
      env.contains name = true ∨ s.declared? = some name := by
  rcases env_execute h with ⟨hnone, henv⟩ | ⟨declared, value, hsome, henv⟩
  · simp [hnone, henv]
  · rw [henv, Environment.contains_define, hsome, Option.some_inj, eq_comm (a := name)]

/-- **A run binds what its statements declare.** -/
theorem Run.contains_of {env : Environment} {ss : List Stmt} (h : (of env ss).failure = none)
    (name : String) :
    (of env ss).env.contains name = true ↔
      env.contains name = true ∨ name ∈ Stmt.declaredNames ss := by
  induction ss generalizing env with
  | nil => simp [Stmt.declaredNames]
  | cons s ss ih =>
    rcases s.execute_cases env with ⟨env', lines, hexec, -⟩ | ⟨e, -, f, -, hexec⟩
    · have hbinds := Stmt.contains_execute (congrArg failure hexec) name
      rw [hexec] at hbinds
      rw [of_cons_ok hexec] at h ⊢
      rw [ih h, hbinds, or_assoc]
      simp [Stmt.declaredNames]
    · rw [of_cons_error (congrArg failure hexec)] at h
      cases h

/-! ### What is not -/

/-- An operator never misses a variable. -/
theorem applyUnary_ne_undefined (operator : Token) (operand : Value) (t : Token) :
    applyUnary operator operand ≠ .error (.error ⟨.undefinedVariable, t⟩) := by
  unfold applyUnary
  split
  · split <;> simp
  · simp
  · simp

theorem applyBinary_ne_undefined (operator : Token) (left right : Value) (t : Token) :
    applyBinary operator left right ≠ .error (.error ⟨.undefinedVariable, t⟩) := by
  have hnumbers (f : Float → Float → Value) :
      onNumbers operator left right f ≠ .error (.error ⟨.undefinedVariable, t⟩) := by
    unfold onNumbers
    split <;> simp
  have hplus : plus operator left right ≠ .error (.error ⟨.undefinedVariable, t⟩) := by
    unfold plus
    split <;> simp
  unfold applyBinary
  split
  case h_1 => exact hplus
  case h_2 | h_3 | h_4 | h_5 | h_6 | h_7 | h_8 => exact hnumbers _
  case h_9 | h_10 | h_11 => simp

/-- **A variable has no value iff it is not bound.** -/
theorem evalVar_undefined_iff {env : Environment} {name t : Token} :
    evalVar env name = .error (.error ⟨.undefinedVariable, t⟩) ↔
      t = name ∧ env.contains name.lexeme = false := by
  rw [Environment.contains_eq_isSome_get?]
  unfold evalVar Environment.get
  cases env.get? name.lexeme with
  | some value => exact iff_of_false nofun nofun
  | none =>
    show Except.error (Failure.error ⟨.undefinedVariable, name⟩) = _ ↔ _
    simp [eq_comm]

/-- **A variable that evaluation misses is one that it reads and that is not bound.** -/
theorem Expr.eval_undefined {env : Environment} {e : Expr} {t : Token}
    (h : e.eval env = .error (.error ⟨.undefinedVariable, t⟩)) :
    t ∈ e.reads ∧ env.contains t.lexeme = false := by
  induction e with
  | literal value => cases h
  | var name =>
    obtain ⟨rfl, hunbound⟩ := evalVar_undefined_iff.mp h
    exact ⟨List.mem_singleton.mpr rfl, hunbound⟩
  | unary operator operand ih =>
    rcases bind_eq_error_iff.mp h with h | ⟨v, -, h⟩
    · exact ih h
    · exact absurd h (applyUnary_ne_undefined operator v t)
  | binary left operator right ihl ihr =>
    rcases bind_eq_error_iff.mp h with h | ⟨l, -, h⟩
    · exact ⟨List.mem_append_left _ (ihl h).1, (ihl h).2⟩
    · rcases bind_eq_error_iff.mp h with h | ⟨r, -, h⟩
      · exact ⟨List.mem_append_right _ (ihr h).1, (ihr h).2⟩
      · exact absurd h (applyBinary_ne_undefined operator l r t)
  | group inner ih => exact ih h

theorem Stmt.execute_undefined {env : Environment} {s : Stmt} {t : Token}
    (h : (s.execute env).failure = some (.error ⟨.undefinedVariable, t⟩)) :
    t ∈ s.reads ∧ env.contains t.lexeme = false := by
  obtain ⟨e, he, heval⟩ := failure_execute_iff.mp h
  rw [reads, he]
  exact Expr.eval_undefined heval

/-- The statement at which a run fails for want of a variable reads it, and nothing has
declared it. -/
theorem Run.undefined_of_execute {env : Environment} {earlier : List Stmt} {s : Stmt} {t : Token}
    (hquiet : (of env earlier).failure = none)
    (hfails : (s.execute (of env earlier).env).failure =
      some (.error ⟨.undefinedVariable, t⟩)) :
    t ∈ s.reads ∧ env.contains t.lexeme = false ∧
      t.lexeme ∉ Stmt.declaredNames earlier := by
  obtain ⟨hreads, hunbound⟩ := Stmt.execute_undefined hfails
  have hnames := (not_congr (contains_of hquiet t.lexeme)).mp (by rw [hunbound]; decide)
  rw [not_or, Bool.not_eq_true] at hnames
  exact ⟨hreads, hnames⟩

/-- **Where a run stops.**  The statements before the failing one, or all of them, succeed,
and the run leaves the environment that they leave. -/
theorem Run.exists_done (env : Environment) (ss : List Stmt) :
    ∃ done rest, ss = done ++ rest ∧ (of env done).failure = none ∧
      (of env ss).env = (of env done).env ∧
      ((rest = [] ∧ (of env ss).failure = none) ∨
        ∃ s later f, rest = s :: later ∧ (s.execute (of env done).env).failure = some f ∧
          (of env ss).failure = some f) := by
  cases hfailure : (of env ss).failure with
  | none => exact ⟨ss, [], (List.append_nil ss).symm, hfailure, rfl, .inl ⟨rfl, rfl⟩⟩
  | some f =>
    obtain ⟨done, s, later, rfl, hquiet, hfails⟩ := failure_eq_some_iff.mp hfailure
    refine ⟨done, s :: later, rfl, hquiet, ?_, .inr ⟨s, later, f, rfl, hfails, rfl⟩⟩
    rw [of_append hquiet, of_cons_error hfails]

/-- **Variables are declared before they are read.**  A run executes some statements with
success, `done`, and stops at the next if there is one.  The names bound after it are those
bound before it and those that `done` declares, so none is ever unbound.  If it stops for want
of the variable `t`, the statement it stops at reads `t`, and the name of `t` was neither bound
before the run nor declared by `done`.  If every variable is bound before the run or declared by
a statement further up than the one that reads it, the run never stops for want of one.  So
`var x = x;` fails where `x` is not bound, and leaves it so. -/
theorem variables_are_declared_before_use (env : Environment) (ss : List Stmt) :
    (∃ done rest, ss = done ++ rest ∧ (Run.of env done).failure = none ∧
      (∀ name, (Run.of env ss).env.contains name = true ↔
        env.contains name = true ∨ name ∈ Stmt.declaredNames done) ∧
      ((rest = [] ∧ (Run.of env ss).failure = none) ∨
        ∃ s later f, rest = s :: later ∧ (s.execute (Run.of env ss).env).failure = some f ∧
          (Run.of env ss).failure = some f ∧
          ∀ t, f = .error ⟨.undefinedVariable, t⟩ →
            t ∈ s.reads ∧ env.contains t.lexeme = false ∧
              t.lexeme ∉ Stmt.declaredNames done)) ∧
    (∀ name, env.contains name = true → (Run.of env ss).env.contains name = true) ∧
    (Stmt.DeclaredBeforeUse env ss →
      ∀ t, (Run.of env ss).failure ≠ some (.error ⟨.undefinedVariable, t⟩)) ∧
    ∀ x y : Token, y.lexeme = x.lexeme → env.contains x.lexeme = false →
      Run.of env (.declare x (some (.var y)) :: ss) =
        ⟨env, [], some (.error ⟨.undefinedVariable, y⟩)⟩ := by
  obtain ⟨done, rest, hsplit, hquiet, henv, hstops⟩ := Run.exists_done env ss
  have hnames (name : String) : (Run.of env ss).env.contains name = true ↔
      env.contains name = true ∨ name ∈ Stmt.declaredNames done := by
    rw [henv, Run.contains_of hquiet]
  refine ⟨⟨done, rest, hsplit, hquiet, hnames, ?_⟩, ?_, ?_, ?_⟩
  · rcases hstops with hall | ⟨s, later, f, hrest, hfails, hfailure⟩
    · exact .inl hall
    · refine .inr ⟨s, later, f, hrest, henv ▸ hfails, hfailure, ?_⟩
      rintro t rfl
      exact Run.undefined_of_execute hquiet hfails
  · exact fun name hbound => (hnames name).mpr (.inl hbound)
  · intro hdeclared t hfailure
    obtain ⟨earlier, s, later, hsplit, hquiet, hfails⟩ := Run.failure_eq_some_iff.mp hfailure
    obtain ⟨hreads, hunbound, hundeclared⟩ := Run.undefined_of_execute hquiet hfails
    rcases hdeclared earlier s later hsplit t hreads with hbound | hearlier
    · rw [hunbound] at hbound
      cases hbound
    · exact hundeclared hearlier
  · intro x y hname hunbound
    apply Run.of_cons_error
    have hmissing := evalVar_undefined_iff.mpr ⟨rfl, hname ▸ hunbound⟩
    exact Stmt.failure_execute_iff.mpr ⟨.var y, rfl, hmissing⟩

/-- In `var a; print a; print b; var b;` the last declaration comes too late.  Without the
last two statements every variable is declared before it is read, and `var a = a;` in front
fails. -/
theorem variables_are_declared_before_use_late :
    let a : Token := ⟨.identifier, "a", none, 1⟩
    let b : Token := ⟨.identifier, "b", none, 2⟩
    let good : List Stmt := [.declare a none, .print (.var a)]
    let late : List Stmt := good ++ [.print (.var b), .declare b none]
    Stmt.DeclaredBeforeUse .empty good ∧
      (∀ t, (Run.of .empty good).failure ≠ some (.error ⟨.undefinedVariable, t⟩)) ∧
      (Run.of .empty late).failure = some (.error ⟨.undefinedVariable, b⟩) ∧
      Run.of .empty (.declare a (some (.var a)) :: good) =
        ⟨.empty, [], some (.error ⟨.undefinedVariable, a⟩)⟩ := by
  intro a b good late
  have hgood : Stmt.DeclaredBeforeUse .empty good := by
    intro earlier s later hsplit t ht
    match earlier with
    | [] =>
      obtain ⟨rfl, -⟩ := List.cons.inj hsplit
      cases ht
    | [_] =>
      obtain ⟨rfl, hrest⟩ := List.cons.inj hsplit
      obtain ⟨rfl, -⟩ := List.cons.inj hrest
      obtain rfl := List.mem_singleton.mp ht
      exact .inr (List.mem_singleton.mpr rfl)
    | _ :: _ :: _ => simp [good] at hsplit
  have hruns := variables_are_declared_before_use .empty good
  exact ⟨hgood, hruns.2.2.1 hgood, rfl, hruns.2.2.2 a a rfl rfl⟩

end LoxLang
