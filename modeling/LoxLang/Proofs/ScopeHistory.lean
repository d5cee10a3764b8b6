import LoxLang.Environment

/-! # What a history of scopes leaves to be read

An environment is made by steps: a name is defined, a scope is opened inside the
innermost one, or the innermost scope is closed.  Where the scope that is closed is the
outermost one, an environment without names takes its place.

A definition is gone once the scope in which it was made is closed.  That is said by the
steps behind it alone: they go on with steps that leave no scope open (`Balanced`), and
then one that closes (`Closes`).  A name has the value of the last definition that is not
gone (`LastDefinition`), which is the main statement, `get_reads_last_definition`.

Both notions can be counted.  `unmatched` is the number of scopes that steps close and do
not open, so it is that many scopes of the environment before them that are gone, and
`lastValue?` looks for the last definition behind which nothing is unmatched.
-/
namespace LoxLang

/-! ### Histories -/

/-- A step in the life of an environment. -/
inductive ScopeStep where
  /-- Binds a name in the innermost scope. -/
  | define (name : String) (value : Value)
  /-- Opens a scope inside the innermost one. -/
  | push
  /-- Closes the innermost scope. -/
  | pop
deriving Repr, DecidableEq

namespace Environment

/-- The environment after a step.  Nothing is left of an environment whose outermost scope
is closed. -/
def step (env : Environment) : ScopeStep → Environment
  | .define name value => env.define name value
  | .push => env.push
  | .pop => env.pop?.getD .empty

/-- The environment after steps. -/
def replay (env : Environment) (steps : List ScopeStep) : Environment := steps.foldl step env

@[simp] theorem replay_nil (env : Environment) : env.replay [] = env := rfl

@[simp] theorem replay_cons (env : Environment) (s : ScopeStep) (steps : List ScopeStep) :
    env.replay (s :: steps) = (env.step s).replay steps := rfl

@[simp] theorem replay_append (env : Environment) (steps more : List ScopeStep) :
    env.replay (steps ++ more) = (env.replay steps).replay more := List.foldl_append

end Environment

namespace ScopeStep

/-- Steps that close every scope they open, and no other. -/
inductive Balanced : List ScopeStep → Prop
  | nil : Balanced []
  | define (name : String) (value : Value) {steps : List ScopeStep} (h : Balanced steps) :
      Balanced (.define name value :: steps)
  | scope {inner steps : List ScopeStep} (hi : Balanced inner) (h : Balanced steps) :
      Balanced (.push :: (inner ++ .pop :: steps))

/-- Some step closes the scope that is innermost before all of them. -/
def Closes (steps : List ScopeStep) : Prop :=
  ∃ inner rest, Balanced inner ∧ steps = inner ++ .pop :: rest

/-- Some definition of `name` is made in a scope that is not closed behind it. -/
def Defines (steps : List ScopeStep) (name : String) : Prop :=
  ∃ before value later, steps = before ++ .define name value :: later ∧ ¬ Closes later

/-- The last definition of `name` that is made in a scope that is not closed behind it
gives it `value`. -/
def LastDefinition (steps : List ScopeStep) (name : String) (value : Value) : Prop :=
  ∃ before later, steps = before ++ .define name value :: later ∧ ¬ Closes later ∧
    ¬ Defines later name

/-! ### Counting the scopes that are closed -/

/-- How many scopes the steps close that they did not open. -/
def unmatched : List ScopeStep → Nat
  | [] => 0
  | .define _ _ :: steps => unmatched steps
  | .push :: steps => unmatched steps - 1
  | .pop :: steps => unmatched steps + 1

theorem Balanced.unmatched_append {steps : List ScopeStep} (h : Balanced steps)
    (rest : List ScopeStep) : unmatched (steps ++ rest) = unmatched rest := by
  induction h generalizing rest with
  | nil => rfl
  | define name value h ih => exact ih rest
  | @scope inner steps hi h ihi ih =>
    calc unmatched (.push :: (inner ++ .pop :: steps) ++ rest)
        = unmatched (inner ++ .pop :: (steps ++ rest)) - 1 := by simp [unmatched]
      _ = unmatched (steps ++ rest) + 1 - 1 := by rw [ihi]; rfl
      _ = unmatched rest := by rw [Nat.add_sub_cancel, ih]

/-- An unmatched step is found behind balanced ones. -/
theorem exists_balanced_of_unmatched (steps : List ScopeStep) (h : 0 < unmatched steps) :
    ∃ inner rest, Balanced inner ∧ steps = inner ++ .pop :: rest := by
  match steps with
  | [] => exact absurd h (Nat.lt_irrefl 0)
  | .define name value :: steps =>
    obtain ⟨inner, rest, hi, rfl⟩ := exists_balanced_of_unmatched steps h
    exact ⟨_, rest, hi.define name value, rfl⟩
  | .pop :: steps => exact ⟨[], steps, .nil, rfl⟩
  | .push :: steps =>
    -- the scope that is opened is closed first, and one more behind that
    have htwo : 1 < unmatched steps := Nat.lt_of_sub_pos h
    obtain ⟨inner, rest, hi, rfl⟩ := exists_balanced_of_unmatched steps (by omega)
    have hrest : 0 < unmatched rest := by
      rw [hi.unmatched_append, unmatched] at htwo
      omega
    obtain ⟨inner', rest', hi', rfl⟩ := exists_balanced_of_unmatched rest hrest
    exact ⟨_, rest', hi.scope hi', by simp⟩
termination_by steps.length

theorem closes_iff {steps : List ScopeStep} : Closes steps ↔ 0 < unmatched steps := by
  constructor
  · rintro ⟨inner, rest, hi, rfl⟩
    rw [hi.unmatched_append]
    exact Nat.succ_pos _
  · exact exists_balanced_of_unmatched steps

/-! ### Looking for the last definition -/

/-- The value of the last definition of `name` behind which nothing is unmatched. -/
def lastValue? (name : String) : List ScopeStep → Option Value
  | [] => none
  | .define defined value :: steps =>
    (lastValue? name steps).or
      (if defined = name ∧ unmatched steps = 0 then some value else none)
  | .push :: steps | .pop :: steps => lastValue? name steps

/-- A step with a property of what is behind it is the first or one behind the first. -/
theorem exists_split_cons {P : List ScopeStep → Prop} {s t : ScopeStep}
    {steps : List ScopeStep} :
    (∃ before later, s :: steps = before ++ t :: later ∧ P later) ↔
      s = t ∧ P steps ∨ ∃ before later, steps = before ++ t :: later ∧ P later := by
  constructor
  · rintro ⟨before, later, hsplit, hP⟩
    rcases List.cons_eq_append_iff.mp hsplit with ⟨-, hcons⟩ | ⟨before', rfl, rfl⟩
    · cases hcons
      exact .inl ⟨rfl, hP⟩
    · exact .inr ⟨before', later, rfl, hP⟩
  · rintro (⟨rfl, hP⟩ | ⟨before, later, rfl, hP⟩)
    · exact ⟨[], steps, rfl, hP⟩
    · exact ⟨s :: before, later, rfl, hP⟩

theorem defines_cons_iff {s : ScopeStep} {steps : List ScopeStep} {name : String} :
    Defines (s :: steps) name ↔
      (∃ value, s = .define name value ∧ ¬ Closes steps) ∨ Defines steps name := by
  unfold Defines
  rw [exists_comm, exists_comm (α := List ScopeStep), ← exists_or]
  exact exists_congr fun value => exists_split_cons

theorem lastDefinition_cons_iff {s : ScopeStep} {steps : List ScopeStep} {name : String}
    {value : Value} :
    LastDefinition (s :: steps) name value ↔
      (s = .define name value ∧ ¬ Closes steps ∧ ¬ Defines steps name) ∨
        LastDefinition steps name value :=
  exists_split_cons

theorem isSome_lastValue?_iff {name : String} {steps : List ScopeStep} :
    (lastValue? name steps).isSome = true ↔ Defines steps name := by
  induction steps with
  | nil => simp [lastValue?, Defines]
  | cons s steps ih =>
    rw [defines_cons_iff, ← ih, closes_iff]
    cases s with
    | push | pop => simp [lastValue?]
    | define defined value =>
      rw [lastValue?, Option.isSome_or, Bool.or_eq_true, or_comm]
      refine or_congr_left ?_
      by_cases h : defined = name ∧ unmatched steps = 0 <;> simp [h]

/-- **The last definition can be found.** -/
theorem lastValue?_eq_some_iff {name : String} {steps : List ScopeStep} {value : Value} :
    lastValue? name steps = some value ↔ LastDefinition steps name value := by
  induction steps with
  | nil => simp [lastValue?, LastDefinition]
  | cons s steps ih =>
    rw [lastDefinition_cons_iff, ← ih, ← isSome_lastValue?_iff, closes_iff]
    cases s with
    | push | pop => simp [lastValue?]
    | define defined bound =>
      rw [lastValue?, Option.or_eq_some_iff, or_comm]
      refine or_congr_left ?_
      by_cases h : defined = name ∧ unmatched steps = 0
      · simp [h, and_comm]
      · simp [h]
        intro hname _ hopen
        exact absurd ⟨hname, hopen⟩ h

end ScopeStep

namespace Environment

open ScopeStep

/-- **Reading after steps.**  A name has the value of its last definition.  If there is none,
it has the value it had in the scopes that the steps do not close. -/
theorem get?_replay (env : Environment) (steps : List ScopeStep) (name : String) :
    (env.replay steps).get? name =
      (lastValue? name steps).or
        ((env.scopes.drop (unmatched steps)).findSome? (·.lookup name)) := by
  induction steps generalizing env with
  | nil => rfl
  | cons s steps ih =>
    rw [replay_cons, ih]
    cases s with
    | define defined value =>
      rw [lastValue?, Option.or_assoc, unmatched, step]
      refine congrArg _ ?_
      by_cases hopen : unmatched steps = 0
      · -- the scope of the definition is still there
        have hget := get?_define env defined name value
        unfold get? at hget
        rw [hopen, List.drop_zero, List.drop_zero, hget]
        by_cases hname : defined = name
        · simp [hname]
        · simp [hname, Ne.symm hname]
      · obtain ⟨k, hk⟩ := Nat.exists_eq_succ_of_ne_zero hopen
        rw [hk]
        simp [define, scopes]
    | push =>
      rw [lastValue?, unmatched, step]
      cases unmatched steps <;> rfl
    | pop =>
      rw [lastValue?, unmatched, step]
      refine congrArg _ ?_
      obtain ⟨innermost, enclosing⟩ := env
      cases enclosing with
      | nil => cases unmatched steps <;> simp [pop?, empty, scopes]
      | cons scope enclosing => rfl

theorem step_pop {env : Environment} {scope : Scope} {enclosing : List Scope}
    (h : env.enclosing = scope :: enclosing) : env.step .pop = ⟨scope, enclosing⟩ := by
  simp [step, pop?, h]

/-- Balanced steps change nothing but the innermost scope. -/
theorem enclosing_replay {steps : List ScopeStep} (h : Balanced steps) (env : Environment) :
    (env.replay steps).enclosing = env.enclosing := by
  induction h generalizing env with
  | nil => rfl
  | define name value h ih => exact ih (env.define name value)
  | @scope inner steps hi h ihi ih =>
    rw [replay_cons, replay_append, replay_cons, step_pop (ihi (env.step .push))]
    exact ih env

/-- **A scope that is opened and closed leaves no trace.** -/
theorem replay_scope {steps : List ScopeStep} (h : Balanced steps) (env : Environment) :
    env.replay (.push :: (steps ++ [.pop])) = env := by
  rw [replay_cons, replay_append, replay_cons, step_pop (enclosing_replay h (env.step .push))]
  rfl

theorem get_eq_ok_iff {env : Environment} {t : Token} {value : Value} :
    env.get t = .ok value ↔ env.get? t.lexeme = some value := by
  unfold get
  cases env.get? t.lexeme <;> simp

theorem get_eq_error_iff {env : Environment} {t : Token} {e : RuntimeError} :
    env.get t = .error e ↔ e = ⟨.undefinedVariable, t⟩ ∧ env.get? t.lexeme = none := by
  unfold get
  cases env.get? t.lexeme <;> simp [eq_comm]

end Environment

/-- **Reading finds the last definition.**  After any steps from an environment without
names, a variable has the value of the last definition of its name that was not gone with
its scope.  Where there is none, reading fails and reports the variable that was asked for.
A name is contained iff there is such a definition.  A scope that is opened and closed,
with balanced steps in between, leaves any environment exactly as it was. -/
theorem get_reads_last_definition (steps : List ScopeStep) :
    (∀ (t : Token) (value : Value),
      (Environment.empty.replay steps).get t = .ok value ↔
        ScopeStep.LastDefinition steps t.lexeme value) ∧
    (∀ (t : Token) (e : RuntimeError),
      (Environment.empty.replay steps).get t = .error e ↔
        e = ⟨.undefinedVariable, t⟩ ∧ ¬ ScopeStep.Defines steps t.lexeme) ∧
    (∀ name : String,
      (Environment.empty.replay steps).contains name = true ↔ ScopeStep.Defines steps name) ∧
    ∀ env : Environment, ScopeStep.Balanced steps →
      env.replay (.push :: (steps ++ [.pop])) = env := by
  have hget (name : String) :
      (Environment.empty.replay steps).get? name = ScopeStep.lastValue? name steps := by
    rw [Environment.get?_replay]
    cases ScopeStep.unmatched steps <;> simp [Environment.empty, Environment.scopes]
  refine ⟨?_, ?_, ?_, fun env h => Environment.replay_scope h env⟩
  · intro t value
    rw [Environment.get_eq_ok_iff, hget, ScopeStep.lastValue?_eq_some_iff]
  · intro t e
    rw [Environment.get_eq_error_iff, hget, ← ScopeStep.isSome_lastValue?_iff,
      Option.not_isSome_iff_eq_none]
  · intro name
    rw [Environment.contains_eq_isSome_get?, hget, ScopeStep.isSome_lastValue?_iff]

/-- After a pop of the outermost scope a name is defined, and then shadowed in an inner
scope, in which another name comes and goes before it is closed. -/
theorem get_reads_last_definition_shadowed :
    let x : Token := ⟨.identifier, "x", none, 7⟩
    let inner : List ScopeStep := [.define "x" .nil, .push, .define "y" (.bool true), .pop]
    let steps : List ScopeStep := [.pop, .define "x" (.bool true), .push] ++ inner ++ [.pop]
    ScopeStep.Balanced inner ∧
      Environment.empty.replay steps = Environment.empty.replay [.pop, .define "x" (.bool true)] ∧
      (Environment.empty.replay steps).get x = .ok (.bool true) ∧
      ScopeStep.LastDefinition steps "x" (.bool true) ∧ ¬ ScopeStep.Defines steps "y" := by
  intro x inner steps
  have hbalanced : ScopeStep.Balanced inner :=
    .define "x" .nil (.scope (.define "y" (.bool true) .nil) .nil)
  have hinner := (get_reads_last_definition inner).2.2.2
  have hsteps := get_reads_last_definition steps
  refine ⟨hbalanced, ?_, rfl, (hsteps.1 x _).mp rfl, ?_⟩
  · exact hinner (Environment.empty.replay [.pop, .define "x" (.bool true)]) hbalanced
  · rw [← hsteps.2.2.1]
    decide

end LoxLang
