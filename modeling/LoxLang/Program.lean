import LoxLang.Grammar

/-! # Programs

A program is read declaration by declaration up to the end of the input.  One
that fails costs one error and the tokens up to the next place where a statement
may begin; reading goes on from there.
-/
namespace LoxLang

/-- Whether a statement of the language, supported or not, starts with this
kind. -/
def Kind.startsStatement (k : Kind) : Bool :=
  k ∈ [kwClass, kwFun, kwVar, kwFor, kwIf, kwWhile, kwPrint, kwReturn]

namespace Program

/-- Whether no token is left before the end of the input. -/
def atEnd (ts : List Token) : Bool := ts.head?.all (·.kind = .eof)

/-- Whether the next token starts a statement. -/
def atStatement (ts : List Token) : Bool := ts.head?.any (·.kind.startsStatement)

/-- Drops at least one token, and then all up to the end of the input, the first
place behind a semicolon or the first token that starts a statement. -/
def recover : List Token → List Token
  | [] => []
  | t :: ts =>
    if t.kind = .eof then t :: ts
    else if t.kind = .semicolon ∨ atStatement ts then ts
    else recover ts

/-- Reads one declaration.  A failure goes on to the next place where a statement
may begin. -/
def attempt (ts : List Token) : Except SyntaxError Stmt × List Token :=
  let r := Grammar.declaration.run ts
  match r.1 with
  | .ok s => (.ok s, r.2)
  | .error e => (.error e, recover r.2)

theorem recover_suffix (ts : List Token) : recover ts <:+ ts := by
  induction ts with
  | nil => exact List.suffix_rfl
  | cons t ts ih =>
    rw [recover]
    split
    · exact List.suffix_rfl
    · split
      · exact List.suffix_cons t ts
      · exact ih.trans (List.suffix_cons t ts)

theorem length_recover_lt {ts : List Token} (h : atEnd ts = false) :
    (recover ts).length < ts.length := by
  cases ts with
  | nil => simp [atEnd] at h
  | cons t ts =>
    have ht : t.kind ≠ .eof := by simpa [atEnd] using h
    rw [recover, if_neg ht]
    split
    · exact Nat.lt_succ_self _
    · exact Nat.lt_succ_of_le (recover_suffix ts).length_le

/-- **Every attempt consumes a token.** -/
theorem length_attempt_lt {ts : List Token} (h : atEnd ts = false) :
    (attempt ts).2.length < ts.length := by
  rw [attempt]
  split
  · rename_i s hs
    exact Grammar.advances_declaration ts s hs
  · rename_i e _
    have hsuf := Grammar.declaration.suffix ts
    rcases Nat.lt_or_eq_of_le hsuf.length_le with hlt | heq
    · exact Nat.lt_of_le_of_lt (recover_suffix _).length_le hlt
    · rw [hsuf.eq_of_length heq]
      exact length_recover_lt h

/-- The outcomes of the attempts at the declarations of `ts`, in order. -/
def attempts (ts : List Token) : List (Except SyntaxError Stmt) :=
  if atEnd ts then []
  else
    let r := attempt ts
    r.1 :: attempts r.2
termination_by ts.length
decreasing_by exact length_attempt_lt (by simp_all)

end Program

/-- What parsing makes of a list of tokens. -/
structure Program where
  /-- The statements that could be read, in order. -/
  statements : List Stmt
  /-- The errors of those that could not, in order. -/
  errors : List SyntaxError
deriving Repr, DecidableEq

/-- The value of a success. -/
def Program.statement? : Except SyntaxError Stmt → Option Stmt
  | .ok s => some s
  | .error _ => none

/-- The error of a failure. -/
def Program.error? : Except SyntaxError Stmt → Option SyntaxError
  | .ok _ => none
  | .error e => some e

/-- Parses a list of tokens. -/
def parse (ts : List Token) : Program :=
  let outcomes := Program.attempts ts
  { statements := outcomes.filterMap Program.statement?
    errors := outcomes.filterMap Program.error? }

end LoxLang
