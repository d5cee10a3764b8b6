import LoxLang.RuntimeError

/-! # Environments

An environment is a chain of scopes, each of which binds names to values.  A name
is defined in the innermost scope and looked up from there outward; each
operation is described by what it does to `get?`.
-/
namespace LoxLang

/-- Names with their values, at most one for each name. -/
abbrev Scope : Type := List (String × Value)

/-- Binds `name` to `value` in place of what it was bound to. -/
def Scope.define (s : Scope) (name : String) (value : Value) : Scope :=
  (name, value) :: s.filter (·.1 != name)

/-- A chain of scopes, which is never empty. -/
structure Environment where
  /-- The scope in which names are defined. -/
  innermost : Scope
  /-- The scopes around it, from the inside out. -/
  enclosing : List Scope
deriving Repr, DecidableEq

namespace Environment

/-- One scope without names. -/
def empty : Environment := ⟨[], []⟩

/-- Every scope, from the inside out. -/
def scopes (env : Environment) : List Scope := env.innermost :: env.enclosing

/-- Binds a name in the innermost scope. -/
def define (env : Environment) (name : String) (value : Value) : Environment :=
  { env with innermost := env.innermost.define name value }

/-- The value of a name in the innermost scope that binds it. -/
def get? (env : Environment) (name : String) : Option Value :=
  env.scopes.findSome? (·.lookup name)

/-- Whether some scope binds a name. -/
def contains (env : Environment) (name : String) : Bool :=
  env.scopes.any fun scope => scope.any (·.1 == name)

/-- The value of the variable that a token names. -/
def get (env : Environment) (name : Token) : Except RuntimeError Value :=
  match env.get? name.lexeme with
  | some value => .ok value
  | none => .error ⟨.undefinedVariable, name⟩

/-- Opens a scope inside the innermost one. -/
def push (env : Environment) : Environment := ⟨[], env.scopes⟩

/-- Drops the innermost scope, if there is one around it. -/
def pop? (env : Environment) : Option Environment :=
  match env.enclosing with
  | [] => none
  | s :: ss => some ⟨s, ss⟩

/-! ### What the operations do to look-ups -/

theorem lookup_define (s : Scope) (name other : String) (value : Value) :
    (s.define name value).lookup other = if other = name then some value else s.lookup other := by
  by_cases h : other = name
  · simp [Scope.define, h]
  · rw [if_neg h, Scope.define, List.lookup_cons, beq_eq_false_iff_ne.mpr h]
    induction s with
    | nil => rfl
    | cons b s ih =>
      obtain ⟨key, bound⟩ := b
      by_cases hk : key = name
      · have ho : (other == name) = false := beq_eq_false_iff_ne.mpr h
        simpa [hk, List.lookup_cons, ho] using ih
      · cases ho : other == key <;> simp_all [List.lookup_cons]

theorem any_eq_isSome_lookup (s : Scope) (name : String) :
    s.any (·.1 == name) = (s.lookup name).isSome := by
  induction s with
  | nil => rfl
  | cons b s ih =>
    obtain ⟨key, bound⟩ := b
    rw [List.any_cons, ih, List.lookup_cons, Bool.beq_comm]
    cases name == key <;> rfl

/-- **The names that an environment contains are those it gives a value.** -/
theorem contains_eq_isSome_get? (env : Environment) (name : String) :
    env.contains name = (env.get? name).isSome := by
  unfold contains get?
  induction env.scopes with
  | nil => rfl
  | cons s ss ih =>
    rw [List.any_cons, ih, List.findSome?_cons, any_eq_isSome_lookup]
    cases s.lookup name <;> rfl

@[simp] theorem get?_empty (name : String) : empty.get? name = none := rfl

theorem get?_define (env : Environment) (name other : String) (value : Value) :
    (env.define name value).get? other = if other = name then some value else env.get? other := by
  simp only [get?, scopes, define, List.findSome?_cons, lookup_define]
  by_cases h : other = name <;> simp [h]

@[simp] theorem get?_push (env : Environment) (name : String) :
    env.push.get? name = env.get? name := rfl

@[simp] theorem pop?_push (env : Environment) : env.push.pop? = some env := rfl

@[simp] theorem pop?_define_push (env : Environment) (name : String) (value : Value) :
    (env.push.define name value).pop? = some env := rfl

end Environment
end LoxLang
