import LoxLang.Proofs.Stretches

/-! # Where reading goes on behind an error

An error that blames a token is raised at the first token that cannot go on, and
reading is taken up again at the first boundary behind that token
(`recovery_reaches_boundary`).  There is one exception.  A unary operator for which
there is no room has been consumed when it is refused, so that recovery drops the token
behind it in its place; if that token starts a statement, the statement is lost
(`recovery_oversteps_statement`).
-/
namespace LoxLang.Program
open Grammar Rule

/-! ### Boundaries of a whole list -/

/-- The places behind position `k` where a statement may begin. -/
def boundariesBehind (ts : List Token) (k : Nat) : Set Nat :=
  {j | k < j ∧ Boundary (ts.take j) (ts.drop j)}

section Positions
variable {vs : List Token}

theorem boundary_take_append (first : List Token) (hvs : vs ≠ []) {j : Nat} (hj : 0 < j) :
    Boundary ((first ++ vs).take (first.length + j)) ((first ++ vs).drop (first.length + j)) ↔
      Boundary (vs.take j) (vs.drop j) := by
  have hne : vs.take j ≠ [] := by
    rw [Ne, List.take_eq_nil_iff]
    rintro (hzero | hnil)
    · omega
    · exact hvs hnil
  rw [List.take_length_add_append, List.drop_length_add_append]
  exact boundary_append first hne

/-- **Recovery stops at the first boundary**, seen from the start of the list. -/
theorem exists_isLeast_recover (first : List Token) (h : atEnd vs = false) :
    ∃ next ≤ (first ++ vs).length, recover vs = (first ++ vs).drop next ∧
      IsLeast (boundariesBehind (first ++ vs) first.length) next := by
  have hvs : vs ≠ [] := by
    rintro rfl
    cases h
  obtain ⟨j, hrec, ⟨hpos, hbound⟩, hleast⟩ := isLeast_recover h
  have hlength : j ≤ vs.length := by
    apply hleast
    refine ⟨List.length_pos_iff.mpr hvs, boundary_of_atEnd ?_⟩
    rw [List.drop_length]
    rfl
  refine ⟨first.length + j, ?_, ?_, ⟨?_, ?_⟩, ?_⟩
  · rw [List.length_append]
    omega
  · rw [List.drop_length_add_append, hrec]
  · omega
  · exact (boundary_take_append first hvs hpos).mpr hbound
  · rintro i ⟨hi, hboundary⟩
    obtain ⟨d, rfl⟩ := Nat.exists_eq_add_of_lt hi
    rw [Nat.add_assoc] at hboundary ⊢
    have hle := hleast ⟨Nat.succ_pos d, (boundary_take_append first hvs d.succ_pos).mp hboundary⟩
    omega

end Positions

/-! ### The token that is refused -/

/-- The attempt that starts at position `start` cannot go on at position `k`: the
tokens before `k` begin a declaration, and those up to `k` begin none. -/
structure RefusesAt (ts : List Token) (start k : Nat) : Prop where
  le : start ≤ k
  begins : ValidDeclaration.Begins ((ts.take k).drop start)
  not_begins : ¬ ValidDeclaration.Begins ((ts.take (k + 1)).drop start)

theorem begins_of_append {us vs : List Token} (h : ValidDeclaration.Begins (us ++ vs)) :
    ValidDeclaration.Begins us := by
  obtain ⟨ws, s, hv⟩ := h
  rw [List.append_assoc] at hv
  exact ⟨vs ++ ws, s, hv⟩

/-- An attempt cannot go on at one position only. -/
theorem RefusesAt.unique {ts : List Token} {start k k' : Nat} (h : RefusesAt ts start k)
    (h' : RefusesAt ts start k') : k = k' := by
  have hnot {k k' : Nat} (h : RefusesAt ts start k) (h' : RefusesAt ts start k') : ¬ k < k' := by
    intro hlt
    obtain ⟨vs, hvs⟩ : ts.take (k + 1) <+: ts.take k' := List.take_prefix_take_left hlt
    have hbegins := h'.begins
    rw [← hvs, List.drop_append] at hbegins
    exact h.not_begins (begins_of_append hbegins)
  have hlt := hnot h h'
  have hgt := hnot h' h
  omega

/-- The rule that starts at position `start` has consumed the token at position `k`,
which it refuses, and right behind it stands a token that starts a statement. -/
def Oversteps (ts : List Token) (start k : Nat) : Prop :=
  (declaration.run (ts.drop start)).2 = ts.drop (k + 1) ∧ atStatement (ts.drop (k + 1)) = true

/-- An attempt that ends on an error at a token, with the token it refuses. -/
theorem attempt_unexpectedToken {rest : List Token} {lexeme message : String} {line : Nat}
    (h : (attempt rest).1 = .error (.unexpectedToken lexeme message line)) :
    ∃ us t ws demand n, rest = us ++ t :: ws ∧ t.kind ≠ .eof ∧
      lexeme = t.lexeme ∧ message = demand.text ∧ line = t.line ∧
      declaration.FailsAt us (some t) demand n ∧ ValidDeclaration.Begins us ∧
      (declaration.run rest).2 = (t :: ws).drop n ∧
      (attempt rest).2 = recover ((t :: ws).drop n) := by
  obtain ⟨us, vs, demand, n, hrest, hfail, hbegins, -, he, hrun, hnext⟩ := attempt_error h
  cases vs with
  | nil => cases he
  | cons t ws =>
    by_cases ht : t.kind = .eof
    · rw [List.head?_cons, SyntaxError.unmet, if_pos ht] at he
      cases he
    · rw [List.head?_cons, SyntaxError.unmet, if_neg ht] at he
      cases he
      exact ⟨us, t, ws, demand, n, hrest, ht, rfl, rfl, rfl, hfail, hbegins,
        congrArg Prod.snd hrun, hnext⟩

/-- What is refused behind the tokens `us` of an attempt is refused at that position of
the whole list. -/
theorem refusesAt {first us ws : List Token} {t : Token} {demand : Demand} {n : Nat}
    (hfail : declaration.FailsAt us (some t) demand n) (hbegins : ValidDeclaration.Begins us) :
    RefusesAt (first ++ us ++ t :: ws) first.length (first ++ us).length where
  le := by
    rw [List.length_append]
    omega
  begins := by
    rw [List.take_left, List.drop_left]
    exact hbegins
  not_begins := by
    rw [List.take_length_add_append, List.append_assoc, List.drop_left]
    exact reads_declaration.not_begins hfail

/-! ### Where recovery ends -/

section Recovery
variable (before ws : List Token) {t : Token}

/-- **The refused token has not been consumed.**  Then recovery drops it first. -/
theorem recover_unconsumed (ht : t.kind ≠ .eof) :
    ∃ next ≤ (before ++ t :: ws).length, recover (t :: ws) = (before ++ t :: ws).drop next ∧
      IsLeast (boundariesBehind (before ++ t :: ws) before.length) next :=
  exists_isLeast_recover before (by simpa using ht)

variable {ws} in
theorem boundary_behind_iff (hsemi : t.kind ≠ .semicolon) (hend : atEnd ws = false) :
    Boundary (before ++ [t]) ws ↔ atStatement ws = true := by
  rw [boundary_append before (List.cons_ne_nil t []), Boundary, hend]
  simp [hsemi]

/-- **The refused token has been consumed.**  Then recovery drops the one behind it
first, and steps over a boundary if that one starts a statement. -/
theorem recover_consumed (hsemi : t.kind ≠ .semicolon) :
    let ts := before ++ t :: ws
    ∃ next ≤ ts.length, recover ws = ts.drop next ∧
      (IsLeast (boundariesBehind ts before.length) next ↔ ¬ atStatement ws = true) ∧
      (atStatement ws = true → IsLeast (boundariesBehind ts (before.length + 1)) next) := by
  intro ts
  have hts : before ++ [t] ++ ws = ts := by rw [List.append_assoc, List.singleton_append]
  have hlength : (before ++ [t]).length = before.length + 1 := by simp
  have hsplit : ts.take (before.length + 1) = before ++ [t] ∧ ts.drop (before.length + 1) = ws := by
    rw [← hts, ← hlength]
    exact ⟨List.take_left, List.drop_left⟩
  cases hend : atEnd ws with
  | true =>
    have hnot : atStatement ws = false := by
      cases ws with
      | nil => rfl
      | cons w ws =>
        have hw : w.kind = .eof := by simpa using hend
        simp [atStatement, hw, Kind.startsStatement]
    refine ⟨before.length + 1, ?_, ?_, ?_, ?_⟩
    · simp [ts]
    · rw [recover_of_atEnd hend, hsplit.2]
    · simp only [hnot, Bool.false_eq_true, not_false_eq_true, iff_true]
      refine ⟨⟨Nat.lt_succ_self _, ?_⟩, fun j hj => hj.1⟩
      rw [hsplit.2]
      exact boundary_of_atEnd hend
    · rw [hnot]
      exact nofun
  | false =>
    obtain ⟨next, hle, hrec, hleast⟩ := exists_isLeast_recover (before ++ [t]) hend
    rw [hts] at hle hrec hleast
    rw [hlength] at hleast
    refine ⟨next, hle, hrec, ?_, fun _ => hleast⟩
    have hbehind : before.length + 1 ∈ boundariesBehind ts before.length ↔
        atStatement ws = true := by
      have hmem : before.length + 1 ∈ boundariesBehind ts before.length ↔
          Boundary (ts.take (before.length + 1)) (ts.drop (before.length + 1)) :=
        and_iff_right (Nat.lt_succ_self _)
      rw [hmem, hsplit.1, hsplit.2]
      exact boundary_behind_iff before hsemi hend
    constructor
    · intro h hstart
      have hsmall := h.2 (hbehind.mpr hstart)
      have hlarge := hleast.1.1
      omega
    · intro hstart
      refine ⟨⟨Nat.lt_of_succ_lt hleast.1.1, hleast.1.2⟩, ?_⟩
      rintro j ⟨hj, hboundary⟩
      rcases Nat.eq_or_lt_of_le hj with rfl | hlt
      · exact absurd (hbehind.mp ⟨hj, hboundary⟩) hstart
      · exact hleast.2 ⟨hlt, hboundary⟩

end Recovery

/-- A declaration that stands where an attempt starts is a stretch of its own. -/
theorem stretches_of_valid {us : List Token} {s : Stmt} (hv : ValidDeclaration us s)
    {rest : List Token} (hend : atEnd (us ++ rest) = false) :
    stretches (us ++ rest) = ⟨us, .ok s⟩ :: stretches rest := by
  have hattempt : attempt (us ++ rest) = (.ok s, rest) :=
    attempt_of_ok (run_declaration_eq_ok_iff.mpr ⟨us, rfl, hv⟩)
  have hconsumed : consumed (us ++ rest) = us := consumed_eq (congrArg Prod.snd hattempt) rfl
  rw [stretches_cons hend, hconsumed, hattempt]

theorem atEnd_eq_false_of_atStatement {ts : List Token} (h : atStatement ts = true) :
    atEnd ts = false := by
  cases ts with
  | nil => cases h
  | cons t ts =>
    have ht : t.kind.startsStatement = true := by simpa [atStatement] using h
    rw [atEnd_cons, decide_eq_false_iff_not]
    rintro heof
    rw [heof] at ht
    cases ht

/-- What an attempt leaves starts behind what it consumes. -/
theorem next_eq {first rest : List Token} {next : Nat} (hle : next ≤ (first ++ rest).length)
    (h : (attempt rest).2 = (first ++ rest).drop next) :
    next = first.length + (consumed rest).length := by
  have hall := congrArg List.length (consumed_append rest)
  have hleft := congrArg List.length h
  rw [List.length_append] at hall
  rw [List.length_drop] at hleft
  rw [List.length_append] at hle hleft
  omega

/-- **One failing attempt**, behind the tokens `first`.  Reading goes on at the first
boundary behind the refused token, unless recovery oversteps it. -/
theorem attempt_reaches_boundary (first : List Token) {rest : List Token}
    {lexeme message : String} {line : Nat}
    (h : (attempt rest).1 = .error (.unexpectedToken lexeme message line)) :
    let ts := first ++ rest
    let start := first.length
    let next := start + (consumed rest).length
    ∃ k t, ts[k]? = some t ∧ lexeme = t.lexeme ∧ line = t.line ∧ RefusesAt ts start k ∧
      (IsLeast (boundariesBehind ts k) next ↔ ¬ Oversteps ts start k) ∧
      (Oversteps ts start k → message = Demand.lessNesting.text ∧
        (t.kind = .bang ∨ t.kind = .minus) ∧ IsLeast (boundariesBehind ts (k + 1)) next) := by
  intro ts start next
  obtain ⟨us, t, ws, demand, n, hrest, ht, hlexeme, hmessage, hline, hfail, hbegins, hleft,
    hnext⟩ := attempt_unexpectedToken h
  have hts : ts = first ++ us ++ t :: ws := by rw [List.append_assoc, ← hrest]
  have hdrop : ts.drop ((first ++ us).length + 1) = ws := by
    rw [hts, List.drop_length_add_append]
    rfl
  have hovers : Oversteps ts start (first ++ us).length ↔
      (t :: ws).drop n = ws ∧ atStatement ws = true := by
    rw [Oversteps, hdrop, List.drop_left, hleft]
  refine ⟨(first ++ us).length, t, ?_, hlexeme, hline, hts ▸ refusesAt hfail hbegins, ?_⟩
  · rw [hts, List.getElem?_append_right (Nat.le_refl _), Nat.sub_self]
    rfl
  rw [hovers]
  rcases hfail.consumed_eq with rfl | ⟨rfl, rfl, u, hu, hkind⟩
  · obtain ⟨place, hle, hrec, hleast⟩ := recover_unconsumed (first ++ us) ws ht
    rw [← hts] at hle hrec hleast
    obtain rfl : place = next := next_eq hle (hnext.trans hrec)
    have hnot : ¬ ((t :: ws).drop 0 = ws ∧ atStatement ws = true) := by
      rintro ⟨hsame, -⟩
      exact absurd (congrArg List.length hsame) (Nat.succ_ne_self _)
    exact ⟨iff_of_true hleast hnot, fun hboth => absurd hboth hnot⟩
  · cases hu
    have hsemi : t.kind ≠ .semicolon := by
      rcases hkind with hkind | hkind <;> rw [hkind] <;> decide
    obtain ⟨place, hle, hrec, hiff, hover⟩ := recover_consumed (first ++ us) ws hsemi
    rw [← hts] at hle hrec hiff hover
    obtain rfl : place = next := next_eq hle (hnext.trans hrec)
    rw [hiff]
    refine ⟨not_congr (and_iff_right rfl).symm, ?_⟩
    rintro ⟨-, hstart⟩
    exact ⟨hmessage, hkind, hover hstart⟩

/-- **Reading goes on at the first boundary behind the refused token.**  Let a stretch
of a program give an error that blames a token.  The token is the one at which the
attempt could not go on, at some position `k`, and the next attempt starts at the first
boundary behind `k`; in particular, a declaration that stands right behind the token
and begins with a keyword of statements is read.  The one exception is a unary operator
that is refused for want of room, and thereby consumed, when a token that starts a
statement stands right behind it: then the next attempt starts at the first boundary
behind that token. -/
theorem recovery_reaches_boundary (ts us : List Token) (earlier later : List Stretch)
    (lexeme message : String) (line : Nat)
    (h : stretches ts =
      earlier ++ ⟨us, .error (.unexpectedToken lexeme message line)⟩ :: later) :
    let start := (earlier.flatMap Stretch.tokens).length
    let next := start + us.length
    ∃ k t, ts[k]? = some t ∧ lexeme = t.lexeme ∧ line = t.line ∧ RefusesAt ts start k ∧
      (IsLeast (boundariesBehind ts k) next ↔ ¬ Oversteps ts start k) ∧
      (Oversteps ts start k → message = Demand.lessNesting.text ∧
        (t.kind = .bang ∨ t.kind = .minus) ∧ IsLeast (boundariesBehind ts (k + 1)) next) ∧
      (¬ Oversteps ts start k → atStatement (ts.drop (k + 1)) = true →
        ∀ vs s more, ts.drop (k + 1) = vs ++ more → ValidDeclaration vs s →
          later = ⟨vs, .ok s⟩ :: stretches more) := by
  intro start next
  obtain ⟨rest, hts, hend, hpart, hlater, -⟩ := exists_attempt h
  obtain ⟨rfl, herror⟩ := Stretch.mk.inj hpart
  obtain ⟨k, t, ht, hlexeme, hline, hrefuses, hiff, hover⟩ :=
    attempt_reaches_boundary (earlier.flatMap Stretch.tokens) herror.symm
  rw [← hts] at ht hrefuses hiff hover
  refine ⟨k, t, ht, hlexeme, hline, hrefuses, hiff, hover, ?_⟩
  intro hnot hstart vs s more hvs hv
  have hleast := hiff.mpr hnot
  have hplace : next = k + 1 := by
    have hsmall : next ≤ k + 1 := hleast.2 ⟨Nat.lt_succ_self k, Or.inr (Or.inl hstart)⟩
    have hlarge : k < next := hleast.1.1
    omega
  have hleft : (attempt rest).2 = vs ++ more := by
    calc (attempt rest).2 = rest.drop (consumed rest).length := (drop_length_consumed rest).symm
      _ = ts.drop next := by rw [hts, List.drop_length_add_append]
      _ = vs ++ more := by rw [hplace, hvs]
  rw [hlater, hleft]
  apply stretches_of_valid hv
  rw [← hvs]
  exact atEnd_eq_false_of_atStatement hstart

/-- In `var ) print nil;` the parenthesis is refused, and reading goes on right behind
it. -/
theorem recovery_reaches_boundary_print :
    let print : List Token :=
      [⟨.kwPrint, "print", none, 1⟩, ⟨.kwNil, "nil", none, 1⟩, ⟨.semicolon, ";", none, 1⟩]
    let us : List Token := [⟨.kwVar, "var", none, 1⟩, ⟨.rightParen, ")", none, 1⟩]
    stretches (us ++ print) =
        [⟨us, .error (.unexpectedToken ")" "Expect variable name." 1)⟩,
          ⟨print, .ok (.print (.literal .nil))⟩] ∧
      ∃ k, RefusesAt (us ++ print) 0 k ∧ IsLeast (boundariesBehind (us ++ print) k) us.length := by
  intro print us
  have hparts : stretches (us ++ print) =
      [⟨us, .error (.unexpectedToken ")" "Expect variable name." 1)⟩,
        ⟨print, .ok (.print (.literal .nil))⟩] := by
    decide +kernel
  obtain ⟨k, t, -, -, -, hrefuses, hiff, hover, -⟩ :=
    recovery_reaches_boundary (us ++ print) us [] _ _ _ _ hparts
  refine ⟨hparts, k, hrefuses, hiff.mpr fun hovers => ?_⟩
  exact absurd (hover hovers).1 (by decide)

/-! ### A statement that is lost -/

theorem run_leftAssociative_error {kinds : List Kind} {operand : Rule Expr}
    {ts rest : List Token} {e : SyntaxError} (h : operand.run ts = (.error e, rest)) :
    (leftAssociative kinds operand).run ts = (.error e, rest) :=
  run_bind_error h _

section Operators
variable {operator : Token} (hop : operator.kind = .bang ∨ operator.kind = .minus)
include hop

/-- One unary operator more than there is room for, whatever follows. -/
theorem run_unary_operators (room : Nat) (rest : List Token) :
    (unary room).run (List.replicate (room + 1) operator ++ rest) =
      (.error (.unmet .lessNesting (some operator)), rest) := by
  have hmem : operator.kind ∈ [.bang, .minus] := by simpa using hop
  induction room with
  | zero => exact run_unary_zero_mem hmem rest
  | succ room ih =>
    rw [List.replicate_succ, List.cons_append, unary, run_accept_bind_mem hmem]
    exact run_bind_error ih _

theorem run_declaration_operators (rest : List Token) :
    declaration.run (List.replicate (maxNesting + 1) operator ++ rest) =
      (.error (.unmet .lessNesting (some operator)), rest) := by
  have hfree (kind : Kind) (hk : kind ≠ .bang ∧ kind ≠ .minus) :
      Free [kind] (List.replicate (maxNesting + 1) operator ++ rest) := by
    rw [List.replicate_succ, List.cons_append, free_cons, List.mem_singleton]
    rintro rfl
    exact hop.elim hk.1 hk.2
  have hexpr : (expression maxNesting).run (List.replicate (maxNesting + 1) operator ++ rest) =
      (.error (.unmet .lessNesting (some operator)), rest) :=
    run_leftAssociative_error (run_leftAssociative_error (run_leftAssociative_error
      (run_leftAssociative_error (run_unary_operators hop maxNesting rest))))
  rw [declaration, run_accept_bind_free (hfree .kwVar (by decide)), statement,
    run_accept_bind_free (hfree .kwPrint (by decide))]
  exact run_bind_error hexpr _

/-- As many unary operators as there is room for. -/
theorem exists_derives_operators (n : Nat) :
    ∃ e, Derives .unary (List.replicate n operator ++ [⟨.kwNil, "nil", none, 1⟩]) e ∧
      e.nesting = n := by
  induction n with
  | zero => exact ⟨.literal .nil, .primary (.nil rfl), rfl⟩
  | succ n ih =>
    obtain ⟨e, hd, hn⟩ := ih
    rw [List.replicate_succ, List.cons_append]
    exact ⟨.unary operator e, .unary hop hd, by rw [Expr.nesting, hn]⟩

theorem begins_operators : ValidDeclaration.Begins (List.replicate maxNesting operator) := by
  obtain ⟨e, hd, hn⟩ := exists_derives_operators hop maxNesting
  refine ⟨[⟨.kwNil, "nil", none, 1⟩, ⟨.semicolon, ";", none, 1⟩], .expression e, ?_,
    Nat.le_of_eq hn⟩
  rw [← List.singleton_append, ← List.append_assoc]
  exact .statement (.expression (hd.binary .equality) rfl)

theorem not_begins_operators :
    ¬ ValidDeclaration.Begins (List.replicate (maxNesting + 1) operator) := by
  rintro ⟨us, s, hv⟩
  exact not_valid_of_run_error (run_declaration_operators hop us) List.prefix_rfl s hv

end Operators

/-- **A statement that is lost.**  Behind one unary operator too many stands `print nil;`,
and position 129 is a boundary behind the refused operator at position 128, but no
attempt starts there: the one error takes up all of the tokens. -/
theorem recovery_oversteps_statement :
    let operators : List Token := List.replicate 129 ⟨.bang, "!", none, 1⟩
    let print : List Token :=
      [⟨.kwPrint, "print", none, 1⟩, ⟨.kwNil, "nil", none, 1⟩, ⟨.semicolon, ";", none, 1⟩]
    let ts := operators ++ print
    (∀ t ∈ ts, t.kind ≠ .eof) ∧
      stretches ts = [⟨ts, .error (.unexpectedToken "!" "Too much nesting." 1)⟩] ∧
      RefusesAt ts 0 128 ∧ (∀ k, RefusesAt ts 0 k → ¬ IsLeast (boundariesBehind ts k) ts.length) ∧
      (parse print).statements = [.print (.literal .nil)] ∧ (parse ts).statements = [] := by
  intro operators print ts
  have hop : (⟨.bang, "!", none, 1⟩ : Token).kind = .bang ∨
      (⟨.bang, "!", none, 1⟩ : Token).kind = .minus := Or.inl rfl
  have hrefuses : RefusesAt ts 0 128 :=
    ⟨Nat.zero_le _, begins_operators hop, not_begins_operators hop⟩
  have hattempt : attempt ts = (.error (.unexpectedToken "!" "Too much nesting." 1), []) :=
    attempt_of_error (run_declaration_operators hop print)
  have hparts : stretches ts = [⟨ts, .error (.unexpectedToken "!" "Too much nesting." 1)⟩] := by
    have hconsumed : consumed ts = ts :=
      consumed_eq (congrArg Prod.snd hattempt) (List.append_nil ts).symm
    rw [stretches_cons rfl, hconsumed, hattempt, stretches, if_pos atEnd_nil]
  refine ⟨List.forall_mem_append.mpr ⟨?_, by decide⟩, hparts, hrefuses, ?_, by decide +kernel, ?_⟩
  · intro t ht
    rw [(List.mem_replicate.mp ht).2]
    decide
  · intro k hk hleast
    obtain rfl := hrefuses.unique hk
    have hle : ts.length ≤ 129 := hleast.2 ⟨Nat.lt_succ_self 128, Or.inr (Or.inl rfl)⟩
    have hlength : ts.length = 132 := by simp [ts, operators, print]
    omega
  · rw [statements_parse, ← map_outcome_stretches, hparts]
    rfl

end LoxLang.Program
