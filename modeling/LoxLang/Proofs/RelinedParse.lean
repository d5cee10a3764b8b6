import LoxLang.Proofs.Attempts
import LoxLang.Proofs.Relining

/-! # Parsing on other lines

No rule of the grammar looks at the line of a token.  Tokens that are moved to other
lines are parsed to the same statements and the same errors, moved alike
(`parse_reline`).  The move has to keep line 0, to which an error is attributed where
no token is left.

`Rule.Moves` says of two rules that the second does on moved tokens what the first does
on the tokens themselves.  It goes through the ways of building rules, so that each rule
of the grammar has it from its parts.
-/
namespace LoxLang

variable {f : Nat → Nat} {α β γ δ : Type}

/-- An outcome on other lines: what was built is moved by `move`, and an error by
`f`. -/
def movedOutcome (f : Nat → Nat) (move : α → β) : Except SyntaxError α → Except SyntaxError β
  | .ok a => .ok (move a)
  | .error e => .error (e.reline f)

theorem SyntaxError.unmet_reline (hf : f 0 = 0) (demand : Demand) (found : Option Token) :
    unmet demand (found.map (Token.reline f)) = (unmet demand found).reline f := by
  cases found with
  | none => rw [Option.map_none, unmet, reline, hf]
  | some t =>
    rw [Option.map_some, unmet, unmet, Token.kind_reline]
    split <;> rfl

/-! ### Ways of building rules -/

namespace Rule

/-- On tokens that `f` has moved, the rule `q` does what `p` does, moved. -/
def Moves (f : Nat → Nat) (move : α → β) (p : Rule α) (q : Rule β) : Prop :=
  ∀ ts, q.run (ts.map (Token.reline f)) =
    (movedOutcome f move (p.run ts).1, (p.run ts).2.map (Token.reline f))

namespace Moves
variable {move : α → β} {p : Rule α} {q : Rule β}

theorem pure (move : α → β) (a : α) : Moves f move (pure a) (pure (move a)) := fun _ => rfl

theorem bind {move' : γ → δ} {next : α → Rule γ} {next' : β → Rule δ} (h : Moves f move p q)
    (hnext : ∀ a, Moves f move' (next a) (next' (move a))) :
    Moves f move' (p >>= next) (q >>= next') := by
  intro ts
  rw [run_bind, run_bind, h ts]
  cases (p.run ts).1 with
  | ok a => exact hnext a (p.run ts).2
  | error e => rfl

theorem fail (hf : f 0 = 0) (move : α → β) (demand : Demand) (found : Option Token) :
    Moves f move (fail (.unmet demand found))
      (fail (.unmet demand (found.map (Token.reline f)))) := by
  rw [SyntaxError.unmet_reline hf]
  exact fun _ => rfl

theorem accept (kinds : List Kind) :
    Moves f (Option.map (Token.reline f)) (accept kinds) (accept kinds) := by
  intro ts
  cases ts with
  | nil => rfl
  | cons t ts =>
    rw [List.map_cons, run_accept_cons, run_accept_cons, Token.kind_reline]
    split <;> rfl

theorem expect (hf : f 0 = 0) (kind : Kind) (demand : Demand) :
    Moves f (Token.reline f) (expect kind demand) (expect kind demand) := by
  intro ts
  cases ts with
  | nil =>
    have hnone := SyntaxError.unmet_reline hf demand none
    rw [List.map_nil, run_expect_nil, movedOutcome, ← hnone]
    rfl
  | cons t ts =>
    have hsome := SyntaxError.unmet_reline hf demand (some t)
    rw [List.map_cons, run_expect_cons, run_expect_cons, Token.kind_reline]
    split
    · rfl
    · rw [movedOutcome, ← hsome]
      rfl

end Moves
end Rule

/-! ### The rules of the grammar -/

namespace Grammar
open Rule

theorem chain_reline {kinds : List Kind} {operand : Rule Expr}
    (h : Moves f (Expr.reline f) operand operand) (left : Expr) (ts : List Token) :
    chain kinds operand (left.reline f) (ts.map (Token.reline f)) =
      (movedOutcome f (Expr.reline f) (chain kinds operand left ts).1,
        (chain kinds operand left ts).2.map (Token.reline f)) := by
  fun_induction chain kinds operand left ts with
  | case1 left => rw [List.map_nil, chain]; rfl
  | case2 left t ts ht r right hr ih =>
    rw [List.map_cons, chain, Token.kind_reline, if_pos ht, h ts, hr]
    exact ih
  | case3 left t ts ht r e hr =>
    rw [List.map_cons, chain, Token.kind_reline, if_pos ht, h ts, hr]
    rfl
  | case4 left t ts ht =>
    rw [List.map_cons, chain, Token.kind_reline, if_neg ht]
    rfl

theorem moves_leftAssociative {operand : Rule Expr}
    (h : Moves f (Expr.reline f) operand operand) (kinds : List Kind) :
    Moves f (Expr.reline f) (leftAssociative kinds operand) (leftAssociative kinds operand) :=
  h.bind fun left ts => chain_reline h left ts

theorem moves_equalityOf {operand : Rule Expr} (h : Moves f (Expr.reline f) operand operand) :
    Moves f (Expr.reline f) (equalityOf operand) (equalityOf operand) := by
  have hfactor := moves_leftAssociative h [.slash, .star]
  have hterm := moves_leftAssociative hfactor [.minus, .plus]
  have hcomparison := moves_leftAssociative hterm [.greater, .greaterEqual, .less, .lessEqual]
  exact moves_leftAssociative hcomparison [.bangEqual, .equalEqual]

theorem atom?_reline (f : Nat → Nat) (t : Token) :
    atom? (t.reline f) = (atom? t).map (Expr.reline f) := by
  obtain ⟨kind, lexeme, literal, line⟩ := t
  unfold atom? Token.reline
  cases kind <;> cases literal <;> rfl

section Rules
variable (hf : f 0 = 0)
include hf

theorem moves_groupOf {inner : Rule Expr} (h : Moves f (Expr.reline f) inner inner) :
    Moves f (Expr.reline f) (groupOf inner) (groupOf inner) :=
  h.bind fun e => (Moves.expect hf _ _).bind fun _ => Moves.pure (Expr.reline f) (.group e)

theorem moves_primaryOf {inner : Option (Rule Expr)}
    (h : ∀ p ∈ inner, Moves f (Expr.reline f) p p) :
    Moves f (Expr.reline f) (primaryOf inner) (primaryOf inner) := by
  intro ts
  cases ts with
  | nil => exact Moves.fail hf (Expr.reline f) .expression none []
  | cons t ts =>
    rw [List.map_cons]
    have hatom := atom?_reline f t
    cases ha : atom? t with
    | some e =>
      rw [ha, Option.map_some] at hatom
      rw [run_primaryOf_atom inner hatom, run_primaryOf_atom inner ha]
      rfl
    | none =>
      rw [ha, Option.map_none] at hatom
      by_cases ht : t.kind = .leftParen
      · cases inner with
        | none =>
          rw [run_primaryOf_none (t := t.reline f) ht, run_primaryOf_none ht]
          exact Moves.fail hf (Expr.reline f) .lessNesting (some t) (t :: ts)
        | some p =>
          rw [run_primaryOf_some (t := t.reline f) p ht, run_primaryOf_some p ht]
          exact moves_groupOf hf (h p rfl) ts
      · rw [run_primaryOf_other inner hatom ht, run_primaryOf_other inner ha ht]
        exact Moves.fail hf (Expr.reline f) .expression (some t) (t :: ts)

/-- **Unary expressions**, for every room. -/
theorem moves_unary (room : Nat) : Moves f (Expr.reline f) (unary room) (unary room) := by
  induction room with
  | zero =>
    refine (Moves.accept _).bind fun found => ?_
    cases found with
    | none => exact moves_primaryOf hf nofun
    | some operator => exact Moves.fail hf _ _ (some operator)
  | succ room ih =>
    refine (Moves.accept _).bind fun found => ?_
    cases found with
    | none =>
      refine moves_primaryOf hf fun p hp => ?_
      cases hp
      exact moves_equalityOf ih
    | some operator => exact ih.bind fun e => Moves.pure (Expr.reline f) (.unary operator e)

theorem moves_expression (room : Nat) :
    Moves f (Expr.reline f) (expression room) (expression room) :=
  moves_equalityOf (moves_unary hf room)

/-- An expression closed by a semicolon. -/
theorem moves_sentence (demand : Demand) {build build' : Expr → Stmt}
    (h : ∀ e, (build e).reline f = build' (e.reline f)) :
    Moves f (Stmt.reline f)
      (expression maxNesting >>= fun e => Rule.expect .semicolon demand >>= fun _ => pure (build e))
      (expression maxNesting >>= fun e => Rule.expect .semicolon demand >>= fun _ =>
        pure (build' e)) := by
  refine (moves_expression hf maxNesting).bind fun e => (Moves.expect hf _ _).bind fun _ => ?_
  rw [← h]
  exact Moves.pure (Stmt.reline f) (build e)

theorem moves_statement : Moves f (Stmt.reline f) statement statement := by
  refine (Moves.accept _).bind fun found => ?_
  cases found with
  | none => exact moves_sentence hf .endOfExpression fun _ => rfl
  | some _ => exact moves_sentence hf .endOfPrint fun _ => rfl

theorem moves_variableDeclaration :
    Moves f (Stmt.reline f) variableDeclaration variableDeclaration := by
  rw [variableDeclaration_eq]
  refine (Moves.expect hf _ _).bind fun name => (Moves.accept _).bind fun found => ?_
  cases found with
  | none =>
    exact (Moves.expect hf _ _).bind fun _ => Moves.pure (Stmt.reline f) (.declare name none)
  | some _ => exact moves_sentence hf .endOfDeclaration fun _ => rfl

/-- **Declarations.**  The rule reads moved tokens as it reads the tokens themselves. -/
theorem moves_declaration : Moves f (Stmt.reline f) declaration declaration := by
  refine (Moves.accept _).bind fun found => ?_
  cases found with
  | none => exact moves_statement hf
  | some _ => exact moves_variableDeclaration hf

end Rules
end Grammar

/-! ### Programs -/

namespace Program
open Grammar

theorem atEnd_reline (f : Nat → Nat) (ts : List Token) :
    atEnd (ts.map (Token.reline f)) = atEnd ts := by
  cases ts <;> rfl

theorem atStatement_reline (f : Nat → Nat) (ts : List Token) :
    atStatement (ts.map (Token.reline f)) = atStatement ts := by
  cases ts <;> rfl

theorem recover_reline (f : Nat → Nat) (ts : List Token) :
    recover (ts.map (Token.reline f)) = (recover ts).map (Token.reline f) := by
  induction ts with
  | nil => rfl
  | cons t ts ih =>
    rw [List.map_cons, recover, recover, Token.kind_reline, atStatement_reline]
    split
    · rfl
    · split
      · rfl
      · exact ih

section Relined
variable (hf : f 0 = 0)
include hf

/-- **One attempt.** -/
theorem attempt_reline (ts : List Token) :
    attempt (ts.map (Token.reline f)) =
      (movedOutcome f (Stmt.reline f) (attempt ts).1, (attempt ts).2.map (Token.reline f)) := by
  have hmoves := moves_declaration hf ts
  rcases hrun : declaration.run ts with ⟨e | s, rest⟩
  · rw [hrun] at hmoves
    simp only [attempt, hrun, hmoves, movedOutcome, recover_reline]
  · rw [hrun] at hmoves
    simp only [attempt, hrun, hmoves, movedOutcome]

/-- **The attempts**, by induction on them. -/
theorem attempts_reline (ts : List Token) :
    attempts (ts.map (Token.reline f)) =
      (attempts ts).map (movedOutcome f (Stmt.reline f)) := by
  fun_induction attempts ts with
  | case1 ts hend => rw [attempts_atEnd (by rw [atEnd_reline, hend]), List.map_nil]
  | case2 ts hend r ih =>
    have hnot : atEnd (ts.map (Token.reline f)) = false := by
      rw [atEnd_reline]
      simpa using hend
    rw [attempts_cons hnot, attempt_reline hf, List.map_cons]
    exact congrArg _ ih

/-- **A program is parsed the same on other lines**, up to the lines in its trees and
errors. -/
theorem parse_reline (ts : List Token) :
    parse (ts.map (Token.reline f)) =
      ⟨(parse ts).statements.map (Stmt.reline f),
        (parse ts).errors.map (SyntaxError.reline f)⟩ := by
  have hstatement (outcome : Except SyntaxError Stmt) :
      statement? (movedOutcome f (Stmt.reline f) outcome) =
        (statement? outcome).map (Stmt.reline f) := by
    cases outcome <;> rfl
  have herror (outcome : Except SyntaxError Stmt) :
      error? (movedOutcome f (Stmt.reline f) outcome) =
        (error? outcome).map (SyntaxError.reline f) := by
    cases outcome <;> rfl
  simp only [parse, attempts_reline hf, List.filterMap_map, List.map_filterMap,
    Function.comp_def, hstatement, herror]

end Relined
end Program
end LoxLang
