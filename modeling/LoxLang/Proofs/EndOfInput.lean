import LoxLang.Proofs.Stretches

/-! # The end of the input

The first token that ends the input is neither consumed nor looked past: what stands
behind it plays no part, and where it is missing the tokens are parsed as if it stood
there on line 0 (`parse_stops_at_end`).  Its line shows in the one error that blames the
end of the input, and nowhere else; behind such an error no other is reported.

`Rule.HeedsEnd` says of a rule that it does before an end of the input what it does
where no token is left, up to the line of an error that blames the end.  It goes through
the ways of building rules, so that each rule of the grammar has it from its parts.  No
rule has a use for the kind of the token that ends the input, and that is all that is
needed of the grammar.
-/
namespace LoxLang

/-! ### Errors that blame the end -/

/-- The error with another line if it blames the end of the input. -/
def SyntaxError.endingOn (line : Nat) : SyntaxError → SyntaxError
  | unexpectedEnd message _ => unexpectedEnd message line
  | e => e

namespace SyntaxError

@[simp] theorem endingOn_endingOn (m n : Nat) (e : SyntaxError) :
    (e.endingOn m).endingOn n = e.endingOn n := by
  cases e <;> rfl

theorem unmet_end (demand : Demand) {e : Token} (he : e.kind = .eof) :
    unmet demand (some e) = (unmet demand none).endingOn e.line := if_pos he

theorem endingOn_unmet_some {t : Token} (ht : t.kind ≠ .eof) (demand : Demand) (line : Nat) :
    (unmet demand (some t)).endingOn line = unmet demand (some t) := by
  rw [unmet, if_neg ht]
  rfl

end SyntaxError

/-- No token ends the input. -/
def Endless (ts : List Token) : Prop := ∀ t ∈ ts, t.kind ≠ .eof

theorem endless_cons {t : Token} {ts : List Token} :
    Endless (t :: ts) ↔ t.kind ≠ .eof ∧ Endless ts := List.forall_mem_cons

theorem Endless.of_suffix {ts us : List Token} (h : Endless ts) (hus : us <:+ ts) : Endless us :=
  fun t ht => h t (hus.subset ht)

/-! ### Ways of building rules -/

namespace Rule
variable {α β : Type}

/-- Where only `e` and `tail` are left, the rule does what it does where nothing is left,
but that the line of `e` is that of an error that blames the end. -/
def HeedsEnd (e : Token) (tail : List Token) (p : Rule α) : Prop :=
  ∀ ts, Endless ts →
    p.run (ts ++ e :: tail) =
      ((p.run ts).1.mapError (SyntaxError.endingOn e.line), (p.run ts).2 ++ e :: tail)

namespace HeedsEnd
variable {e : Token} {tail : List Token} {p : Rule α}

theorem pure (a : α) : HeedsEnd e tail (pure a : Rule α) := fun _ _ => rfl

theorem bind {next : α → Rule β} (h : HeedsEnd e tail p)
    (hnext : ∀ a, HeedsEnd e tail (next a)) : HeedsEnd e tail (p >>= next) := by
  intro ts hts
  rw [run_bind, run_bind, h ts hts]
  cases (p.run ts).1 with
  | ok a => exact hnext a (p.run ts).2 (hts.of_suffix (p.suffix ts))
  | error error => rfl

/-- A choice by the next token, none of which is the end of the input. -/
theorem accept_bind {kinds : List Kind} {next : Option Token → Rule α} (he : e.kind ∉ kinds)
    (hsome : ∀ t, t.kind ∈ kinds → HeedsEnd e tail (next (some t)))
    (hnone : HeedsEnd e tail (next none)) : HeedsEnd e tail (accept kinds >>= next) := by
  intro ts hts
  rcases mem_or_free kinds ts with ⟨t, us, rfl, ht⟩ | hfree
  · rw [List.cons_append, run_accept_bind_mem ht, run_accept_bind_mem ht]
    exact hsome t ht us (endless_cons.mp hts).2
  · have hfree' : Free kinds (ts ++ e :: tail) := by
      cases ts with
      | nil => exact free_cons.mpr he
      | cons t ts => exact free_cons.mpr (free_cons.mp hfree)
    rw [run_accept_bind_free hfree', run_accept_bind_free hfree]
    exact hnone ts hts

theorem fail {t : Token} (ht : t.kind ≠ .eof) (demand : Demand) :
    HeedsEnd e tail (fail (.unmet demand (some t)) : Rule α) := by
  intro ts _
  rw [run_fail, run_fail, Except.mapError, SyntaxError.endingOn_unmet_some ht]

theorem expect (he : e.kind = .eof) {kind : Kind} (hkind : kind ≠ .eof) (demand : Demand) :
    HeedsEnd e tail (expect kind demand) := by
  intro ts hts
  cases ts with
  | nil =>
    have hne : e.kind ≠ kind := by
      rw [he]
      exact hkind.symm
    rw [List.nil_append, run_expect_cons, if_neg hne, SyntaxError.unmet_end demand he]
    rfl
  | cons t ts =>
    have ht := (endless_cons.mp hts).1
    rw [List.cons_append, run_expect_cons, run_expect_cons]
    split
    · rfl
    · rw [Except.mapError, SyntaxError.endingOn_unmet_some ht]
      rfl

end HeedsEnd
end Rule

/-! ### The rules of the grammar -/

namespace Grammar
open Rule

section Rules
variable {e : Token} {tail : List Token}

theorem chain_append_end {kinds : List Kind} {operand : Rule Expr} (he : e.kind ∉ kinds)
    (h : HeedsEnd e tail operand) (left : Expr) {ts : List Token} (hts : Endless ts) :
    chain kinds operand left (ts ++ e :: tail) =
      ((chain kinds operand left ts).1.mapError (SyntaxError.endingOn e.line),
        (chain kinds operand left ts).2 ++ e :: tail) := by
  fun_induction chain kinds operand left ts with
  | case1 left => exact chain_free (free_cons.mpr he)
  | case2 left t ts ht r right hr ih =>
    have hrest := (endless_cons.mp hts).2
    have hop := h ts hrest
    rw [hr] at hop
    rw [List.cons_append, chain_ok ht hop]
    exact ih (hrest.of_suffix (operand.suffix ts))
  | case3 left t ts ht r error hr =>
    have hop := h ts (endless_cons.mp hts).2
    rw [hr] at hop
    rw [List.cons_append, chain_error ht hop]
    rfl
  | case4 left t ts ht => exact chain_free (free_cons.mpr ht)

variable (he : e.kind = .eof)
include he

theorem kind_not_mem {kinds : List Kind} (h : Kind.eof ∉ kinds) : e.kind ∉ kinds := by
  rwa [he]

theorem heedsEnd_leftAssociative {kinds : List Kind} {operand : Rule Expr}
    (hkinds : Kind.eof ∉ kinds) (h : HeedsEnd e tail operand) :
    HeedsEnd e tail (leftAssociative kinds operand) :=
  h.bind fun left _ hts => chain_append_end (kind_not_mem he hkinds) h left hts

theorem heedsEnd_equalityOf {operand : Rule Expr} (h : HeedsEnd e tail operand) :
    HeedsEnd e tail (equalityOf operand) := by
  have hfactor : HeedsEnd e tail (factorOf operand) :=
    heedsEnd_leftAssociative he (by decide) h
  have hterm : HeedsEnd e tail (termOf operand) :=
    heedsEnd_leftAssociative he (by decide) hfactor
  have hcomparison : HeedsEnd e tail (comparisonOf operand) :=
    heedsEnd_leftAssociative he (by decide) hterm
  exact heedsEnd_leftAssociative he (by decide) hcomparison

theorem heedsEnd_groupOf {inner : Rule Expr} (h : HeedsEnd e tail inner) :
    HeedsEnd e tail (groupOf inner) :=
  h.bind fun expr => (HeedsEnd.expect he (by decide) _).bind fun _ => .pure (Expr.group expr)

theorem heedsEnd_primaryOf {inner : Option (Rule Expr)}
    (h : ∀ p ∈ inner, HeedsEnd e tail p) : HeedsEnd e tail (primaryOf inner) := by
  intro ts hts
  cases ts with
  | nil =>
    have hatom : atom? e = none := by simp [atom?, he]
    have hparen : e.kind ≠ .leftParen := by simp [he]
    rw [List.nil_append, run_primaryOf_other inner hatom hparen, SyntaxError.unmet_end _ he]
    rfl
  | cons t ts =>
    obtain ⟨ht, hts⟩ := endless_cons.mp hts
    rw [List.cons_append]
    cases hatom : atom? t with
    | some expr =>
      rw [run_primaryOf_atom inner hatom, run_primaryOf_atom inner hatom]
      rfl
    | none =>
      by_cases hparen : t.kind = .leftParen
      · cases inner with
        | none =>
          rw [run_primaryOf_none hparen, run_primaryOf_none hparen, Except.mapError,
            SyntaxError.endingOn_unmet_some ht]
          rfl
        | some p =>
          rw [run_primaryOf_some p hparen, run_primaryOf_some p hparen]
          exact heedsEnd_groupOf he (h p rfl) ts hts
      · rw [run_primaryOf_other inner hatom hparen, run_primaryOf_other inner hatom hparen,
          Except.mapError, SyntaxError.endingOn_unmet_some ht]
        rfl

/-- **Unary expressions**, for every room. -/
theorem heedsEnd_unary (room : Nat) : HeedsEnd e tail (unary room) := by
  have hbang : e.kind ∉ [Kind.bang, .minus] := kind_not_mem he (by decide)
  induction room with
  | zero =>
    refine .accept_bind hbang (fun operator hop => ?_) (heedsEnd_primaryOf he nofun)
    -- what is refused for want of room is a unary operator, not the end of the input
    refine .fail ?_ .lessNesting
    intro hend
    rw [hend] at hop
    revert hop
    decide
  | succ room ih =>
    refine .accept_bind hbang (fun operator _ => ih.bind fun _ => .pure _) ?_
    refine heedsEnd_primaryOf he fun p hp => ?_
    cases hp
    exact heedsEnd_equalityOf he ih

/-- An expression closed by a semicolon. -/
theorem heedsEnd_sentence (demand : Demand) (build : Expr → Stmt) :
    HeedsEnd e tail (expression maxNesting >>= fun expr =>
      Rule.expect .semicolon demand >>= fun _ => pure (build expr)) := by
  have hexpression : HeedsEnd e tail (expression maxNesting) :=
    heedsEnd_equalityOf he (heedsEnd_unary he maxNesting)
  exact hexpression.bind fun expr => (HeedsEnd.expect he (by decide) demand).bind fun _ =>
    .pure (build expr)

theorem heedsEnd_statement : HeedsEnd e tail statement :=
  .accept_bind (kind_not_mem he (by decide))
    (fun _ _ => heedsEnd_sentence he .endOfPrint .print)
    (heedsEnd_sentence he .endOfExpression .expression)

theorem heedsEnd_variableDeclaration : HeedsEnd e tail variableDeclaration := by
  rw [variableDeclaration_eq]
  refine (HeedsEnd.expect he (by decide) _).bind fun name => ?_
  refine .accept_bind (kind_not_mem he (by decide)) (fun _ _ => ?_) ?_
  · exact heedsEnd_sentence he .endOfDeclaration fun initial => .declare name (some initial)
  · exact (HeedsEnd.expect he (by decide) _).bind fun _ =>
      .pure (Stmt.declare name none)

/-- **Declarations.** -/
theorem heedsEnd_declaration : HeedsEnd e tail declaration :=
  .accept_bind (kind_not_mem he (by decide)) (fun _ _ => heedsEnd_variableDeclaration he)
    (heedsEnd_statement he)

end Rules
end Grammar

/-! ### Programs -/

namespace Program
open Grammar

section End
variable {e : Token} {tail ts : List Token} (he : e.kind = .eof)
include he

theorem atEnd_append_end : atEnd (ts ++ e :: tail) = atEnd ts := by
  cases ts with
  | nil => simp [he]
  | cons t ts => rfl

theorem atStatement_append_end : atStatement (ts ++ e :: tail) = atStatement ts := by
  cases ts with
  | nil => simp [atStatement, he, Kind.startsStatement]
  | cons t ts => rfl

/-- Recovery stops at the end of the input. -/
theorem recover_append_end (hts : Endless ts) :
    recover (ts ++ e :: tail) = recover ts ++ e :: tail := by
  induction ts with
  | nil => exact recover_of_atEnd (by simp [he])
  | cons t ts ih =>
    obtain ⟨ht, hts⟩ := endless_cons.mp hts
    rw [List.cons_append, recover, recover, if_neg ht, if_neg ht, atStatement_append_end he]
    split
    · rfl
    · exact ih hts

/-- **One attempt.** -/
theorem attempt_append_end (hts : Endless ts) :
    attempt (ts ++ e :: tail) =
      ((attempt ts).1.mapError (SyntaxError.endingOn e.line), (attempt ts).2 ++ e :: tail) := by
  have hheeds : declaration.run (ts ++ e :: tail) = _ := heedsEnd_declaration he ts hts
  rcases hrun : declaration.run ts with ⟨error | s, rest⟩
  · have hrest : Endless rest := by
      have hsuffix := declaration.suffix ts
      rw [hrun] at hsuffix
      exact hts.of_suffix hsuffix
    rw [hrun] at hheeds
    rw [attempt_of_error hheeds, attempt_of_error hrun, recover_append_end he hrest]
    rfl
  · rw [hrun] at hheeds
    rw [attempt_of_ok hheeds, attempt_of_ok hrun]
    rfl

/-- **The attempts**, by induction on them. -/
theorem attempts_append_end (hts : Endless ts) :
    attempts (ts ++ e :: tail) =
      (attempts ts).map (Except.mapError (SyntaxError.endingOn e.line)) := by
  fun_induction attempts ts with
  | case1 ts hend => rw [attempts_atEnd (by rw [atEnd_append_end he, hend]), List.map_nil]
  | case2 ts hend r ih =>
    have hnot : atEnd (ts ++ e :: tail) = false := by
      rw [atEnd_append_end he]
      simpa using hend
    rw [attempts_cons hnot, attempt_append_end he hts, List.map_cons]
    exact congrArg _ (ih (hts.of_suffix (attempt_suffix ts)))

/-- **A program before an end of the input** is parsed as if no token were left there, but
for the line of an error that blames the end. -/
theorem parse_append_end (hts : Endless ts) :
    parse (ts ++ e :: tail) =
      ⟨(parse ts).statements, (parse ts).errors.map (SyntaxError.endingOn e.line)⟩ := by
  have hstatement (outcome : Except SyntaxError Stmt) :
      statement? (outcome.mapError (SyntaxError.endingOn e.line)) = statement? outcome := by
    cases outcome <;> rfl
  have herror (outcome : Except SyntaxError Stmt) :
      error? (outcome.mapError (SyntaxError.endingOn e.line)) =
        (error? outcome).map (SyntaxError.endingOn e.line) := by
    cases outcome <;> rfl
  simp only [parse, attempts_append_end he hts, List.filterMap_map, List.map_filterMap,
    Function.comp_def, hstatement, herror]

end End

/-- Where no token ends the input, an error that blames the end is on line 0. -/
theorem endingOn_zero_of_mem_errors {ts : List Token} (hts : Endless ts) :
    ∀ error ∈ (parse ts).errors, error.endingOn 0 = error := by
  rw [errors_parse]
  fun_induction attempts ts with
  | case1 => exact List.forall_mem_nil _
  | case2 ts hend r ih =>
    have hrest := ih (hts.of_suffix (attempt_suffix ts))
    cases hfirst : r.1 with
    | ok s => exact hrest
    | error error =>
      refine List.forall_mem_cons.mpr ⟨?_, hrest⟩
      obtain ⟨us, vs, demand, n, rfl, -, -, -, rfl, -, -⟩ := attempt_error hfirst
      cases vs with
      | nil => rfl
      | cons t vs =>
        have ht : t.kind ≠ .eof := hts t (by simp)
        exact SyntaxError.endingOn_unmet_some ht demand 0

/-- **Behind an error that blames the end nothing is left to attempt.** -/
theorem atEnd_of_unexpectedEnd {ts : List Token} {message : String} {line : Nat}
    (h : (attempt ts).1 = .error (.unexpectedEnd message line)) :
    atEnd (attempt ts).2 = true := by
  obtain ⟨us, vs, demand, n, -, hfail, -, -, herror, -, hrest⟩ := attempt_error h
  have hend : atEnd vs = true := by
    cases vs with
    | nil => rfl
    | cons t vs =>
      by_cases ht : t.kind = .eof
      · simpa using ht
      · simp [SyntaxError.unmet, ht] at herror
  -- what is found there is no unary operator, so it has not been consumed
  rcases hfail.consumed_eq with rfl | ⟨_, _, t, ht, hkind⟩
  · rw [hrest, List.drop_zero, recover_of_atEnd hend, hend]
  · obtain ⟨ws, rfl⟩ := List.head?_eq_some_iff.mp ht
    have heof : t.kind = .eof := by simpa using hend
    rcases hkind with hkind | hkind <;> rw [hkind] at heof <;> cases heof

/-- **An error that blames the end is the last one.** -/
theorem not_unexpectedEnd_of_mem_dropLast (ts : List Token) :
    ∀ error ∈ (parse ts).errors.dropLast, ∀ message line,
      error ≠ .unexpectedEnd message line := by
  rw [errors_parse]
  fun_induction attempts ts with
  | case1 => exact fun error herror => absurd herror List.not_mem_nil
  | case2 ts hend r ih =>
    cases hfirst : r.1 with
    | ok s => exact ih
    | error first =>
      change ∀ error ∈ (first :: (attempts r.2).filterMap error?).dropLast, _
      cases hmore : (attempts r.2).filterMap error? with
      | nil => exact fun error herror => absurd herror List.not_mem_nil
      | cons second more =>
        rw [List.dropLast_cons_cons, ← hmore]
        refine List.forall_mem_cons.mpr ⟨?_, ih⟩
        rintro message line rfl
        rw [attempts_atEnd (atEnd_of_unexpectedEnd hfirst)] at hmore
        cases hmore

/-- **Parsing stops at the end of the input.**  Let `e` end the input, and no token of
`ts` before it.  What stands behind `e` plays no part.  Without `e` the tokens are parsed
as with `e` on line 0.  On another line `e` changes nothing but the line of an error that
blames the end of the input.  Whatever tokens are parsed, only the last error can be of
that sort, so that there is at most one. -/
theorem parse_stops_at_end (ts : List Token) (e : Token) (hts : ∀ t ∈ ts, t.kind ≠ .eof)
    (he : e.kind = .eof) :
    (∀ u v, parse (ts ++ [e] ++ u) = parse (ts ++ [e] ++ v)) ∧
    (∀ u, parse ts = parse (ts ++ [{ e with line := 0 }] ++ u)) ∧
    (∀ u line, parse (ts ++ [{ e with line }] ++ u) =
      ⟨(parse (ts ++ [e] ++ u)).statements,
        (parse (ts ++ [e] ++ u)).errors.map (SyntaxError.endingOn line)⟩) ∧
    ∀ us : List Token, ∀ error ∈ (parse us).errors.dropLast, ∀ message line,
      error ≠ .unexpectedEnd message line := by
  have hparse (line : Nat) (u : List Token) : parse (ts ++ [{ e with line }] ++ u) =
      ⟨(parse ts).statements, (parse ts).errors.map (SyntaxError.endingOn line)⟩ := by
    rw [List.append_assoc]
    exact parse_append_end he hts
  refine ⟨fun u v => ?_, fun u => ?_, fun u line => ?_, not_unexpectedEnd_of_mem_dropLast⟩
  · exact (hparse e.line u).trans (hparse e.line v).symm
  · rw [hparse, List.map_congr_left (endingOn_zero_of_mem_errors hts), List.map_id']
  · have hown : parse (ts ++ [e] ++ u) = _ := hparse e.line u
    rw [hparse, hown]
    simp only [List.map_map, Function.comp_def, SyntaxError.endingOn_endingOn]

/-- The tokens of `); print nil` without an end, and with one on line 3.  The semicolon
behind the end does not finish the statement. -/
theorem parse_stops_at_end_print :
    let ts : List Token :=
      [⟨.rightParen, ")", none, 1⟩, ⟨.semicolon, ";", none, 1⟩, ⟨.kwPrint, "print", none, 2⟩,
        ⟨.kwNil, "nil", none, 2⟩]
    let semicolon : Token := ⟨.semicolon, ";", none, 3⟩
    let wrong : SyntaxError := .unexpectedToken ")" "Expect expression." 1
    (∀ t ∈ ts, t.kind ≠ .eof) ∧ (Token.eof 3).kind = .eof ∧
      parse ts = ⟨[], [wrong, .unexpectedEnd "Expect ';' after value." 0]⟩ ∧
      parse (ts ++ [Token.eof 3] ++ [semicolon]) =
        ⟨[], [wrong, .unexpectedEnd "Expect ';' after value." 3]⟩ ∧
      parse (ts ++ [Token.eof 3] ++ [semicolon]) = parse (ts ++ [Token.eof 3] ++ []) ∧
      parse ts = parse (ts ++ [Token.eof 0] ++ [semicolon]) := by
  intro ts semicolon wrong
  have hts : ∀ t ∈ ts, t.kind ≠ .eof := by decide
  obtain ⟨htail, hmissing, -, -⟩ := parse_stops_at_end ts (Token.eof 3) hts rfl
  exact ⟨hts, rfl, by decide +kernel, by decide +kernel, htail [semicolon] [],
    hmissing [semicolon]⟩

end Program
end LoxLang
