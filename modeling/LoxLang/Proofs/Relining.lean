import LoxLang.Run
import LoxLang.Proofs.Derivation

/-! # The same program on other lines

Tokens keep the line they were read on, and trees keep tokens, so that the same text
further down a source gives another tree.  `reline f` moves everything on line `n` to
line `f n`.  It keeps derivations (`DerivesProgram.reline`), and a program that is
moved runs as it did before, but that its failure is moved too (`Run.of_reline`).
-/
namespace LoxLang

variable (f : Nat → Nat)

/-! ### Moving everything to other lines -/

/-- The token on another line. -/
def Token.reline (t : Token) : Token := { t with line := f t.line }

@[simp] theorem Token.kind_reline (t : Token) : (t.reline f).kind = t.kind := rfl

@[simp] theorem Token.lexeme_reline (t : Token) : (t.reline f).lexeme = t.lexeme := rfl

/-- The expression on other lines. -/
def Expr.reline : Expr → Expr
  | literal value => literal value
  | var name => var (name.reline f)
  | unary operator operand => unary (operator.reline f) operand.reline
  | binary left operator right => binary left.reline (operator.reline f) right.reline
  | group inner => group inner.reline

/-- The statement on other lines. -/
def Stmt.reline : Stmt → Stmt
  | expression expr => expression (expr.reline f)
  | print expr => print (expr.reline f)
  | declare name initial => declare (name.reline f) (initial.map (Expr.reline f))

/-- The syntax error on another line. -/
def SyntaxError.reline : SyntaxError → SyntaxError
  | strayCharacter character line => strayCharacter character (f line)
  | unclosedString line => unclosedString (f line)
  | unexpectedToken lexeme message line => unexpectedToken lexeme message (f line)
  | unexpectedEnd message line => unexpectedEnd message (f line)

/-- The runtime error on another line. -/
def RuntimeError.reline (e : RuntimeError) : RuntimeError :=
  { e with token := e.token.reline f }

/-- The fault on another line. -/
def OperatorFault.reline : OperatorFault → OperatorFault
  | unary lexeme line => unary lexeme (f line)
  | binary lexeme line => binary lexeme (f line)

/-- The failure on another line. -/
def Failure.reline : Failure → Failure
  | error e => error (e.reline f)
  | fault g => fault (g.reline f)

/-- The run with its failure on another line. -/
def Run.reline (r : Run) : Run := { r with failure := r.failure.map (Failure.reline f) }

/-! ### Derivations -/

theorem Expr.nesting_reline (e : Expr) : (e.reline f).nesting = e.nesting := by
  induction e with
  | literal | var => rfl
  | unary _ operand ih => rw [reline, nesting, nesting, ih]
  | binary left _ right ihl ihr => rw [reline, nesting, nesting, ihl, ihr]
  | group inner ih => rw [reline, nesting, nesting, ih]

theorem Stmt.nesting_reline (s : Stmt) : (s.reline f).nesting = s.nesting := by
  cases s with
  | expression expr => exact expr.nesting_reline f
  | print expr => exact expr.nesting_reline f
  | declare name initial =>
    cases initial with
    | none => rfl
    | some initial => exact initial.nesting_reline f

namespace Grammar
variable {f} {ts : List Token}

theorem Derives.reline {c : Category} {e : Expr} (h : Derives c ts e) :
    Derives c (ts.map (Token.reline f)) (e.reline f) := by
  induction h with
  | operand _ ih => exact .operand ih
  | operation _ ho _ ihl ihr =>
    rw [List.map_append]
    exact .operation ihl ho ihr
  | unary ho _ ih => exact .unary ho ih
  | primary _ ih => exact .primary ih
  | constant hk hl => exact .constant hk hl
  | true hk => exact .true hk
  | false hk => exact .false hk
  | nil hk => exact .nil hk
  | identifier hk => exact .identifier hk
  | group ho _ hc ih =>
    rw [List.map_append]
    exact .group ho ih hc

theorem DerivesStatement.reline {s : Stmt} (h : DerivesStatement ts s) :
    DerivesStatement (ts.map (Token.reline f)) (s.reline f) := by
  cases h with
  | print hk h hc =>
    rw [List.map_append]
    exact .print hk h.reline hc
  | expression h hc =>
    rw [List.map_append]
    exact .expression h.reline hc

theorem DerivesDeclaration.reline {s : Stmt} (h : DerivesDeclaration ts s) :
    DerivesDeclaration (ts.map (Token.reline f)) (s.reline f) := by
  cases h with
  | bare hk hn hc => exact .bare hk hn hc
  | initialized hk hn he h hc =>
    rw [List.map_append]
    exact .initialized hk hn he h.reline hc
  | statement h => exact .statement h.reline

/-- **A program is derived on whatever lines it stands.** -/
theorem DerivesProgram.reline {ss : List Stmt} (h : DerivesProgram ts ss) :
    DerivesProgram (ts.map (Token.reline f)) (ss.map (Stmt.reline f)) := by
  induction h with
  | nil => exact .nil
  | cons h _ ih =>
    rw [List.map_append]
    exact .cons h.reline ih

end Grammar

/-! ### Evaluation and execution -/

theorem mapError_bind {α β : Type} (g : Failure → Failure) (r : Except Failure α)
    (next : α → Except Failure β) :
    (r >>= next).mapError g = r.mapError g >>= fun a => (next a).mapError g := by
  cases r <;> rfl

theorem onNumbers_reline (operator : Token) (left right : Value) (op : Float → Float → Value) :
    onNumbers (operator.reline f) left right op =
      (onNumbers operator left right op).mapError (Failure.reline f) := by
  unfold onNumbers
  split <;> rfl

theorem plus_reline (operator : Token) (left right : Value) :
    plus (operator.reline f) left right =
      (plus operator left right).mapError (Failure.reline f) := by
  unfold plus
  split <;> rfl

theorem applyUnary_reline (operator : Token) (operand : Value) :
    applyUnary (operator.reline f) operand =
      (applyUnary operator operand).mapError (Failure.reline f) := by
  unfold applyUnary
  rw [Token.kind_reline]
  split
  · split <;> rfl
  · rfl
  · rfl

theorem applyBinary_reline (operator : Token) (left right : Value) :
    applyBinary (operator.reline f) left right =
      (applyBinary operator left right).mapError (Failure.reline f) := by
  unfold applyBinary
  rw [Token.kind_reline]
  split
  case h_1 => exact plus_reline f operator left right
  case h_2 | h_3 | h_4 | h_5 | h_6 | h_7 | h_8 => exact onNumbers_reline f operator left right _
  case h_9 | h_10 | h_11 => rfl

theorem evalVar_reline (env : Environment) (name : Token) :
    evalVar env (name.reline f) = (evalVar env name).mapError (Failure.reline f) := by
  unfold evalVar Environment.get
  rw [Token.lexeme_reline]
  split <;> rfl

theorem Expr.eval_reline (env : Environment) (e : Expr) :
    (e.reline f).eval env = (e.eval env).mapError (Failure.reline f) := by
  induction e with
  | literal value => rfl
  | var name => exact evalVar_reline f env name
  | unary operator operand ih =>
    simp only [reline, eval, mapError_bind, ih, applyUnary_reline]
  | binary left operator right ihl ihr =>
    simp only [reline, eval, mapError_bind, ihl, ihr, applyBinary_reline]
  | group inner ih => exact ih

theorem Stmt.execute_reline (env : Environment) (s : Stmt) :
    (s.reline f).execute env = (s.execute env).reline f := by
  cases s with
  | expression expr | print expr =>
    simp only [reline, execute, Expr.eval_reline]
    cases expr.eval env <;> rfl
  | declare name initial =>
    cases initial with
    | none => rfl
    | some initial =>
      simp only [reline, Option.map_some, execute, Expr.eval_reline]
      cases initial.eval env <;> rfl

namespace Run

/-- **A program runs the same on other lines**, up to the line of its failure. -/
theorem of_reline (env : Environment) (ss : List Stmt) :
    of env (ss.map (Stmt.reline f)) = (of env ss).reline f := by
  induction ss generalizing env with
  | nil => rfl
  | cons s ss ih =>
    have hmoved := s.execute_reline f env
    rw [List.map_cons]
    rcases s.execute_cases env with ⟨env', lines, hexec, -⟩ | ⟨e, -, failure, -, hexec⟩
    · rw [hexec] at hmoved
      rw [of_cons_ok hmoved, of_cons_ok hexec, ih]
      rfl
    · rw [hexec] at hmoved
      rw [of_cons_error (by rw [hmoved]; rfl), of_cons_error (by rw [hexec])]
      rfl

end Run
end LoxLang
