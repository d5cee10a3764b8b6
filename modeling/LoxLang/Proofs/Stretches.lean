import Mathlib.Data.List.Basic
import Mathlib.Order.Bounds.Defs
import LoxLang.Proofs.Attempts

/-! # The tokens of a program, stretch by stretch

Each attempt at a declaration consumes a stretch of the tokens, and the next attempt
starts where it ends.  `stretches` is the list of them, each with what its attempt
came to.  They make up the tokens before the end of the input, no token is read twice
and none is left out (`parse_splits_tokens`).

What a failing attempt consumes is decided by recovery.  It drops a first token and
then as few as it takes to reach a boundary, a place where a statement may begin
(`isLeast_recover`).  That there are no further semicolons in such a stretch, and that
it does not run over the end of the input, follows from that alone: behind the one and
before the other there would have been an earlier boundary.
-/
namespace LoxLang

/-- The tokens that one attempt at a declaration consumes, and what it comes to. -/
structure Stretch where
  /-- The tokens consumed. -/
  tokens : List Token
  /-- The statement that was read, or why none was. -/
  outcome : Except SyntaxError Stmt
deriving DecidableEq

namespace Program
open Grammar

/-! ### Boundaries -/

/-- Between `before` and `after` a statement may begin: a semicolon comes right
before, or a token that starts a statement comes next, or nothing does. -/
def Boundary (before after : List Token) : Prop :=
  (∃ t ∈ before.getLast?, t.kind = .semicolon) ∨ atStatement after = true ∨ atEnd after = true

section Boundary
variable {before after : List Token}

/-- Only the last token before a boundary counts. -/
theorem boundary_append (first : List Token) (h : before ≠ []) :
    Boundary (first ++ before) after ↔ Boundary before after := by
  rw [Boundary, List.getLast?_append_of_ne_nil first h, Boundary]

theorem Boundary.append_left (h : Boundary before after) (first : List Token) :
    Boundary (first ++ before) after := by
  rcases h with ⟨t, ht, hsemi⟩ | h
  · exact Or.inl ⟨t, List.mem_getLast?_append_of_mem_getLast? ht, hsemi⟩
  · exact Or.inr h

theorem boundary_of_atEnd (h : atEnd after = true) : Boundary before after := Or.inr (Or.inr h)

end Boundary

theorem recover_of_atEnd {ts : List Token} (h : atEnd ts = true) : recover ts = ts := by
  cases ts with
  | nil => rfl
  | cons t ts => rw [recover, if_pos (by simpa using h)]

/-- **Recovery stops at the first boundary** behind the token it drops first. -/
theorem isLeast_recover {ts : List Token} (h : atEnd ts = false) :
    ∃ j, recover ts = ts.drop j ∧
      IsLeast {j | 0 < j ∧ Boundary (ts.take j) (ts.drop j)} j := by
  induction ts with
  | nil => cases h
  | cons t ts ih =>
    have ht : t.kind ≠ .eof := by simpa using h
    have hone (hbound : Boundary [t] ts) :
        IsLeast {j | 0 < j ∧ Boundary ((t :: ts).take j) ((t :: ts).drop j)} 1 :=
      ⟨⟨Nat.one_pos, hbound⟩, fun j hj => hj.1⟩
    rw [recover, if_neg ht]
    by_cases hstop : t.kind = .semicolon ∨ atStatement ts = true
    · rw [if_pos hstop]
      refine ⟨1, rfl, hone ?_⟩
      rcases hstop with hsemi | hstart
      · exact Or.inl ⟨t, rfl, hsemi⟩
      · exact Or.inr (Or.inl hstart)
    · rw [if_neg hstop]
      cases hend : atEnd ts with
      | true => exact ⟨1, recover_of_atEnd hend, hone (boundary_of_atEnd hend)⟩
      | false =>
        obtain ⟨j, hrec, ⟨hpos, hbound⟩, hleast⟩ := ih hend
        -- behind `t` there is no boundary, and all later ones are those of `ts`
        have hshift {i : Nat} (hi : 0 < i) :
            Boundary ((t :: ts).take (i + 1)) ((t :: ts).drop (i + 1)) ↔
              Boundary (ts.take i) (ts.drop i) := by
          have hne : ts.take i ≠ [] := by
            cases ts with
            | nil => cases hend
            | cons u us => simp [Nat.pos_iff_ne_zero.mp hi]
          exact boundary_append [t] hne
        refine ⟨j + 1, hrec, ⟨Nat.succ_pos j, (hshift hpos).mpr hbound⟩, ?_⟩
        rintro (_ | _ | i) ⟨hi, hboundary⟩
        · cases hi
        · rcases hboundary with ⟨u, hu, hsemi⟩ | hstart | hnone
          · cases hu
            exact absurd (Or.inl hsemi) hstop
          · exact absurd (Or.inr hstart) hstop
          · rw [show (t :: ts).drop (0 + 1) = ts from rfl, hend] at hnone
            cases hnone
        · have hle := hleast ⟨Nat.succ_pos i, (hshift (Nat.succ_pos i)).mp hboundary⟩
          exact Nat.succ_le_succ hle

/-- What recovery drops: no end of the input, no semicolon but as the last token, and
up to a boundary. -/
theorem exists_dropped (ts : List Token) :
    ∃ dropped, ts = dropped ++ recover ts ∧ (∀ t ∈ dropped, t.kind ≠ .eof) ∧
      (∀ t ∈ dropped.dropLast, t.kind ≠ .semicolon) ∧ Boundary dropped (recover ts) := by
  cases hend : atEnd ts with
  | true =>
    rw [recover_of_atEnd hend]
    exact ⟨[], rfl, List.forall_mem_nil _, List.forall_mem_nil _, boundary_of_atEnd hend⟩
  | false =>
    obtain ⟨j, hrec, ⟨_, hbound⟩, hleast⟩ := isLeast_recover hend
    rw [hrec]
    refine ⟨ts.take j, (List.take_append_drop j ts).symm, ?_, ?_, hbound⟩
    · intro t ht heof
      obtain ⟨i, hi, hti⟩ := List.mem_take_iff_getElem.mp ht
      have hdrop : atEnd (ts.drop i) = true := by
        rw [List.drop_eq_getElem_cons (by omega), hti]
        simpa using heof
      -- the first token does not end the input, so a later one would be a boundary
      have hpos : 0 < i := by
        rcases Nat.eq_zero_or_pos i with rfl | hpos
        · rw [List.drop_zero, hend] at hdrop
          cases hdrop
        · exact hpos
      have hle : j ≤ i := hleast ⟨hpos, boundary_of_atEnd hdrop⟩
      omega
    · intro t ht hsemi
      rw [List.dropLast_eq_take, List.take_take] at ht
      obtain ⟨i, hi, hti⟩ := List.mem_take_iff_getElem.mp ht
      rw [List.length_take] at hi
      have hlast : (ts.take (i + 1)).getLast? = some t := by
        rw [List.take_succ_eq_append_getElem (by omega), List.getLast?_concat, hti]
      have hle : j ≤ i + 1 := hleast ⟨Nat.succ_pos i, Or.inl ⟨t, hlast, hsemi⟩⟩
      omega

/-! ### One attempt -/

section Attempt
variable {ts left rest : List Token} {s : Stmt} {e : SyntaxError}

theorem attempt_of_ok (h : declaration.run ts = (.ok s, rest)) : attempt ts = (.ok s, rest) := by
  simp only [attempt, h]

theorem attempt_of_error (h : declaration.run ts = (.error e, left)) :
    attempt ts = (.error e, recover left) := by
  simp only [attempt, h]

/-- An attempt that succeeds has read a valid declaration. -/
theorem attempt_ok (h : (attempt ts).1 = .ok s) :
    ∃ us, ts = us ++ (attempt ts).2 ∧ ValidDeclaration us s := by
  rcases hrun : declaration.run ts with ⟨e | s', rest⟩
  · rw [attempt_of_error hrun] at h
    cases h
  · rw [attempt_of_ok hrun] at h ⊢
    cases h
    exact run_declaration_eq_ok_iff.mp hrun

/-- An attempt that fails has refused what stands behind the beginning of a
declaration, and has recovered from there. -/
theorem attempt_error (h : (attempt ts).1 = .error e) :
    ∃ us vs demand n, ts = us ++ vs ∧ declaration.FailsAt us vs.head? demand n ∧
      ValidDeclaration.Begins us ∧ Unbroken us ∧ e = .unmet demand vs.head? ∧
      declaration.run ts = (.error e, vs.drop n) ∧ (attempt ts).2 = recover (vs.drop n) := by
  rcases hrun : declaration.run ts with ⟨e' | s, left⟩
  · obtain ⟨us, vs, demand, n, rfl, hfail, hbegins, hunb⟩ := run_declaration_error hrun
    rw [attempt_of_error hrun] at h ⊢
    cases h
    have hsame := hfail.run_eq vs rfl
    rw [hrun] at hsame
    cases hsame
    exact ⟨us, vs, demand, n, rfl, hfail, hbegins, hunb, rfl, rfl, rfl⟩
  · rw [attempt_of_ok hrun] at h
    cases h

end Attempt

/-- The tokens that an attempt consumes. -/
def consumed (ts : List Token) : List Token := ts.take (ts.length - (attempt ts).2.length)

section Consumed
variable {ts : List Token}

theorem consumed_append (ts : List Token) : consumed ts ++ (attempt ts).2 = ts :=
  List.suffix_iff_eq_append.mp (attempt_suffix ts)

theorem drop_length_consumed (ts : List Token) : ts.drop (consumed ts).length = (attempt ts).2 := by
  have hdrop : (consumed ts ++ (attempt ts).2).drop (consumed ts).length = (attempt ts).2 :=
    List.drop_left
  rwa [consumed_append] at hdrop

theorem consumed_eq {us rest : List Token} (h : (attempt ts).2 = rest) (hts : ts = us ++ rest) :
    consumed ts = us := by
  have hall := consumed_append ts
  rw [h] at hall
  exact List.append_cancel_right (hall.trans hts)

theorem consumed_ne_nil (h : atEnd ts = false) : consumed ts ≠ [] := by
  intro hnil
  have hlt := length_attempt_lt h
  have hall := congrArg List.length (consumed_append ts)
  rw [hnil, List.nil_append] at hall
  omega

/-- **A stretch that gives a statement** is a valid declaration. -/
theorem valid_consumed {s : Stmt} (h : (attempt ts).1 = .ok s) :
    ValidDeclaration (consumed ts) s := by
  obtain ⟨us, hus, hv⟩ := attempt_ok h
  rwa [consumed_eq rfl hus]

/-- **A stretch that gives an error** goes on to a boundary and over no semicolon. -/
theorem consumed_of_error {e : SyntaxError} (h : (attempt ts).1 = .error e) :
    (∀ t ∈ consumed ts, t.kind ≠ .eof) ∧ (∀ t ∈ (consumed ts).dropLast, t.kind ≠ .semicolon) ∧
      Boundary (consumed ts) (attempt ts).2 := by
  obtain ⟨us, vs, demand, n, hts, hfail, -, hunb, -, -, hrest⟩ := attempt_error h
  obtain ⟨dropped, hdropped, heof, hsemi, hbound⟩ := exists_dropped (vs.drop n)
  -- what the rules themselves have consumed
  have hread : Unbroken (us ++ vs.take n) := by
    refine unbroken_append.mpr ⟨hunb, ?_⟩
    rcases hfail.consumed_eq with rfl | ⟨rfl, -, t, ht, hkind⟩
    · exact List.forall_mem_nil _
    · obtain ⟨ws, rfl⟩ := List.head?_eq_some_iff.mp ht
      rcases hkind with hkind | hkind <;>
        exact unbroken_singleton hkind (by decide) (by decide)
  have hsplit : ts = (us ++ vs.take n ++ dropped) ++ recover (vs.drop n) := by
    rw [List.append_assoc, ← hdropped, List.append_assoc, List.take_append_drop, hts]
  rw [consumed_eq hrest hsplit, hrest]
  refine ⟨?_, ?_, hbound.append_left _⟩
  · exact List.forall_mem_append.mpr ⟨fun t ht => (hread t ht).2, heof⟩
  · by_cases hnil : dropped = []
    · rw [hnil, List.append_nil]
      exact fun t ht => (hread t (List.dropLast_subset _ ht)).1
    · rw [List.dropLast_append_of_ne_nil hnil]
      exact List.forall_mem_append.mpr ⟨fun t ht => (hread t ht).1, hsemi⟩

/-- No stretch reaches the end of the input. -/
theorem kind_ne_eof_of_mem_consumed {t : Token} (ht : t ∈ consumed ts) : t.kind ≠ .eof := by
  cases h : (attempt ts).1 with
  | error e => exact (consumed_of_error h).1 t ht
  | ok s =>
    obtain ⟨us, closing, hus, hclosing, hunb⟩ := exists_concat (valid_consumed h)
    rw [hus] at ht
    rcases List.mem_append.mp ht with ht | ht
    · exact (hunb t ht).2
    · rw [List.mem_singleton.mp ht, hclosing]
      decide

end Consumed

/-! ### All attempts -/

/-- The stretches of a list of tokens, in order. -/
def stretches (ts : List Token) : List Stretch :=
  if atEnd ts then [] else ⟨consumed ts, (attempt ts).1⟩ :: stretches (attempt ts).2
termination_by ts.length
decreasing_by exact length_attempt_lt (by simp_all)

/-- The tokens before the end of the input. -/
def beforeEnd (ts : List Token) : List Token := ts.takeWhile (·.kind ≠ .eof)

/-- The end of the input and what stands behind it. -/
def fromEnd (ts : List Token) : List Token := ts.dropWhile (·.kind ≠ .eof)

section Stretches
variable {ts : List Token}

theorem stretches_cons (h : atEnd ts = false) :
    stretches ts = ⟨consumed ts, (attempt ts).1⟩ :: stretches (attempt ts).2 := by
  rw [stretches, if_neg (by simp [h])]

theorem map_outcome_stretches (ts : List Token) :
    (stretches ts).map Stretch.outcome = attempts ts := by
  fun_induction stretches ts with
  | case1 ts hend => rw [attempts_atEnd hend, List.map_nil]
  | case2 ts hend ih => rw [attempts_cons (by simpa using hend), List.map_cons, ih]

theorem beforeEnd_of_atEnd (h : atEnd ts = true) : beforeEnd ts = [] := by
  cases ts with
  | nil => rfl
  | cons t ts => exact List.takeWhile_cons_of_neg (by simpa using h)

section Append
variable {us : List Token} (hus : ∀ t ∈ us, t.kind ≠ .eof) (vs : List Token)
include hus

theorem beforeEnd_append : beforeEnd (us ++ vs) = us ++ beforeEnd vs :=
  List.takeWhile_append_of_pos fun t ht => decide_eq_true (hus t ht)

theorem fromEnd_append : fromEnd (us ++ vs) = fromEnd vs := by
  rw [fromEnd, List.dropWhile_append_of_pos fun t ht => decide_eq_true (hus t ht)]
  rfl

end Append

theorem fromEnd_attempt (ts : List Token) : fromEnd (attempt ts).2 = fromEnd ts := by
  have hnot : ∀ t ∈ consumed ts, t.kind ≠ .eof := fun t => kind_ne_eof_of_mem_consumed
  rw [← fromEnd_append hnot, consumed_append]

/-- **Nothing is lost and nothing is read twice.** -/
theorem flatMap_tokens_stretches (ts : List Token) :
    (stretches ts).flatMap Stretch.tokens = beforeEnd ts := by
  fun_induction stretches ts with
  | case1 ts hend => rw [beforeEnd_of_atEnd hend, List.flatMap_nil]
  | case2 ts hend ih =>
    rw [List.flatMap_cons, ih, ← beforeEnd_append fun t => kind_ne_eof_of_mem_consumed,
      consumed_append]

/-- A stretch is what the attempt behind the earlier ones consumes, and the later ones
are those of what it leaves. -/
theorem exists_attempt {earlier later : List Stretch} {part : Stretch}
    (h : stretches ts = earlier ++ part :: later) :
    ∃ rest, ts = earlier.flatMap Stretch.tokens ++ rest ∧ atEnd rest = false ∧
      part = ⟨consumed rest, (attempt rest).1⟩ ∧ later = stretches (attempt rest).2 ∧
      fromEnd (attempt rest).2 = fromEnd ts := by
  induction earlier generalizing ts with
  | nil =>
    cases hend : atEnd ts with
    | true =>
      rw [stretches, if_pos hend] at h
      cases h
    | false =>
      rw [stretches_cons hend] at h
      cases h
      exact ⟨ts, rfl, hend, rfl, rfl, fromEnd_attempt ts⟩
  | cons first earlier ih =>
    cases hend : atEnd ts with
    | true =>
      rw [stretches, if_pos hend] at h
      cases h
    | false =>
      rw [stretches_cons hend] at h
      obtain ⟨rfl, htail⟩ := List.cons.inj h
      obtain ⟨rest, hrest, hnot, hpart, hlater, hfrom⟩ := ih htail
      refine ⟨rest, ?_, hnot, hpart, hlater, hfrom.trans (fromEnd_attempt ts)⟩
      rw [List.flatMap_cons, List.append_assoc, ← hrest, consumed_append]

theorem beforeEnd_append_fromEnd (ts : List Token) : beforeEnd ts ++ fromEnd ts = ts :=
  List.takeWhile_append_dropWhile

end Stretches

/-! ### Counting -/

/-- Every outcome is a statement or an error. -/
theorem length_filterMap_outcomes (outcomes : List (Except SyntaxError Stmt)) :
    (outcomes.filterMap statement?).length + (outcomes.filterMap error?).length =
      outcomes.length := by
  induction outcomes with
  | nil => rfl
  | cons outcome outcomes ih =>
    cases outcome with
    | ok s =>
      simp only [List.filterMap_cons, statement?, error?, List.length_cons]
      omega
    | error e =>
      simp only [List.filterMap_cons, statement?, error?, List.length_cons]
      omega

theorem length_stretches_le (ts : List Token) : (stretches ts).length ≤ (beforeEnd ts).length := by
  rw [← flatMap_tokens_stretches]
  fun_induction stretches ts with
  | case1 => exact Nat.zero_le _
  | case2 ts hend ih =>
    have hpos := List.length_pos_iff.mpr (consumed_ne_nil (by simpa using hend))
    simp only [List.flatMap_cons, List.length_append, List.length_cons]
    omega

/-- **Every token is spent on one statement or one error.**  The tokens before the end
of the input fall into stretches, none of them empty, and the statements and the
errors of the program are those of the stretches, in order, one for each.  A stretch
that gives a statement is a whole declaration, and the one that the rule reads there.
A stretch that gives an error is one at whose start the rule fails with that error; it
holds a semicolon at most as its last token, and it ends behind a semicolon, before a
token that starts a statement, or at the end of the input.  So there are at most as
many statements and errors together as there are tokens before the end of the
input. -/
theorem parse_splits_tokens (ts : List Token) :
    let parts := stretches ts
    let behind (later : List Stretch) := later.flatMap Stretch.tokens ++ fromEnd ts
    parts.flatMap Stretch.tokens = beforeEnd ts ∧
      (parse ts).statements = parts.filterMap (statement? ·.outcome) ∧
      (parse ts).errors = parts.filterMap (error? ·.outcome) ∧
      (∀ earlier us s later, parts = earlier ++ ⟨us, .ok s⟩ :: later →
        us ≠ [] ∧ ValidDeclaration us s ∧ declaration.run us = (.ok s, []) ∧
          declaration.run (us ++ behind later) = (.ok s, behind later)) ∧
      (∀ earlier us e later, parts = earlier ++ ⟨us, .error e⟩ :: later →
        us ≠ [] ∧ (∃ left, declaration.run (us ++ behind later) = (.error e, left)) ∧
          (∀ t ∈ us.dropLast, t.kind ≠ .semicolon) ∧ Boundary us (behind later)) ∧
      (parse ts).statements.length + (parse ts).errors.length ≤ (beforeEnd ts).length := by
  intro parts behind
  have houtcomes : attempts ts = parts.map Stretch.outcome := (map_outcome_stretches ts).symm
  refine ⟨flatMap_tokens_stretches ts, ?_, ?_, ?_, ?_, ?_⟩
  · rw [statements_parse, houtcomes, List.filterMap_map]
    rfl
  · rw [errors_parse, houtcomes, List.filterMap_map]
    rfl
  · intro earlier us s later h
    obtain ⟨rest, -, hend, hpart, -, -⟩ := exists_attempt h
    obtain ⟨rfl, hok⟩ := Stretch.mk.inj hpart
    have hv := valid_consumed hok.symm
    exact ⟨consumed_ne_nil hend, hv,
      run_declaration_eq_ok_iff.mpr ⟨_, (List.append_nil _).symm, hv⟩,
      run_declaration_eq_ok_iff.mpr ⟨_, rfl, hv⟩⟩
  · intro earlier us e later h
    obtain ⟨rest, -, hend, hpart, hlater, hfrom⟩ := exists_attempt h
    obtain ⟨rfl, herror⟩ := Stretch.mk.inj hpart
    obtain ⟨-, hsemi, hbound⟩ := consumed_of_error herror.symm
    obtain ⟨_, _, _, _, -, -, -, -, -, hrun, -⟩ := attempt_error herror.symm
    have hnext : behind later = (attempt rest).2 := by
      dsimp only [behind]
      rw [hlater, flatMap_tokens_stretches, ← hfrom, beforeEnd_append_fromEnd]
    rw [hnext, consumed_append]
    exact ⟨consumed_ne_nil hend, ⟨_, hrun⟩, hsemi, hbound⟩
  · rw [statements_parse, errors_parse, length_filterMap_outcomes, houtcomes, List.length_map]
    exact length_stretches_le ts

/-- In `) print nil; (` the first parenthesis is a stretch of its own, and the second
is one that the end of the input cuts short.  What stands behind the end is not
read. -/
theorem parse_splits_tokens_parentheses :
    let print : List Token :=
      [⟨.kwPrint, "print", none, 1⟩, ⟨.kwNil, "nil", none, 1⟩, ⟨.semicolon, ";", none, 1⟩]
    let tail : List Token := [⟨.eof, "", none, 2⟩, ⟨.semicolon, ";", none, 3⟩]
    let ts : List Token :=
      ⟨.rightParen, ")", none, 1⟩ :: print ++ ⟨.leftParen, "(", none, 1⟩ :: tail
    stretches ts =
        [⟨[⟨.rightParen, ")", none, 1⟩], .error (.unexpectedToken ")" "Expect expression." 1)⟩,
          ⟨print, .ok (.print (.literal .nil))⟩,
          ⟨[⟨.leftParen, "(", none, 1⟩], .error (.unexpectedEnd "Expect expression." 2)⟩] ∧
      ValidDeclaration print (.print (.literal .nil)) ∧
      Boundary [⟨.leftParen, "(", none, 1⟩] tail := by
  intro print tail ts
  have hparts : stretches ts =
      [⟨[⟨.rightParen, ")", none, 1⟩], .error (.unexpectedToken ")" "Expect expression." 1)⟩,
        ⟨print, .ok (.print (.literal .nil))⟩,
        ⟨[⟨.leftParen, "(", none, 1⟩], .error (.unexpectedEnd "Expect expression." 2)⟩] := by
    decide +kernel
  obtain ⟨-, -, -, hok, herror, -⟩ := parse_splits_tokens ts
  have hvalid := (hok [_] _ _ [_] hparts).2.1
  have hbound := (herror [_, _] _ _ [] hparts).2.2.2
  exact ⟨hparts, hvalid, hbound⟩

end Program
end LoxLang
