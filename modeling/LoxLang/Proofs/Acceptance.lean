import LoxLang.Proofs.Attempts

/-! # Parsing accepts exactly the grammar

Up to the end of the input, a list of tokens is parsed without an error iff it is
derived as a list of declarations in which nothing stands too deep, and the
statements are those of the derivation (`parse_accepts_iff_derives`).  The end of
the input is the first token of that kind; what stands behind it plays no part.
-/
namespace LoxLang.Program
open Grammar

/-! ### Parsing without an error -/

theorem attempts_eq_map_ok_of_errors_eq_nil {outcomes : List (Except SyntaxError Stmt)}
    (h : outcomes.filterMap error? = []) :
    outcomes = (outcomes.filterMap statement?).map Except.ok := by
  induction outcomes with
  | nil => rfl
  | cons outcome outcomes ih =>
    cases outcome with
    | error e => simp [error?] at h
    | ok s =>
      have hrest : outcomes.filterMap error? = [] := h
      exact congrArg (Except.ok s :: ·) (ih hrest)

theorem parse_eq_iff {ts : List Token} {ss : List Stmt} :
    parse ts = ⟨ss, []⟩ ↔ attempts ts = ss.map Except.ok := by
  constructor
  · intro h
    obtain ⟨hs, he⟩ := Program.mk.inj h
    rw [attempts_eq_map_ok_of_errors_eq_nil he]
    exact congrArg _ hs
  · intro h
    have hs : (parse ts).statements = ss := by
      rw [statements_parse, h, List.filterMap_map]
      exact List.filterMap_some
    have he : (parse ts).errors = [] := by
      rw [errors_parse, h, List.filterMap_map]
      exact List.filterMap_eq_nil_iff.mpr fun _ _ => rfl
    rw [← hs, ← he]

/-! ### Both directions, one declaration at a time -/

/-- A declaration does not begin with the end of the input. -/
theorem atEnd_append_of_valid {us : List Token} {s : Stmt} (h : ValidDeclaration us s)
    (rest : List Token) : atEnd (us ++ rest) = false := by
  obtain ⟨vs, closing, rfl, hc, hunb⟩ := exists_concat h
  cases vs with
  | nil => simp [hc]
  | cons v vs =>
    rw [List.append_assoc]
    exact atEnd_cons_append (hunb v List.mem_cons_self).2 vs _

/-- Behind declarations that can be read, the attempts go on as if they started
there. -/
theorem attempts_append_of_derivesProgram {ts : List Token} {ss : List Stmt}
    (h : DerivesProgram ts ss) (hn : ∀ s ∈ ss, s.nesting ≤ maxNesting) (rest : List Token) :
    attempts (ts ++ rest) = ss.map Except.ok ++ attempts rest := by
  induction h with
  | nil => rfl
  | @cons us vs s ss hd _ ih =>
    obtain ⟨hs, hss⟩ := List.forall_mem_cons.mp hn
    have hrun : declaration.run (us ++ (vs ++ rest)) = (.ok s, vs ++ rest) :=
      run_declaration_eq_ok_iff.mpr ⟨us, rfl, hd, hs⟩
    rw [List.append_assoc, attempts_ok (atEnd_append_of_valid ⟨hd, hs⟩ _) hrun, ih hss,
      List.map_cons, List.cons_append]

theorem attempts_of_derivesProgram {ts tail : List Token} {ss : List Stmt} {e : Token}
    (he : e.kind = .eof) (h : DerivesProgram ts ss) (hn : ∀ s ∈ ss, s.nesting ≤ maxNesting) :
    attempts (ts ++ e :: tail) = ss.map Except.ok := by
  rw [attempts_append_of_derivesProgram h hn, attempts_atEnd (by simp [he]), List.append_nil]

theorem derivesProgram_of_attempts {ts tail : List Token} {ss : List Stmt} {e : Token}
    (he : e.kind = .eof) (hts : ∀ t ∈ ts, t.kind ≠ .eof)
    (h : attempts (ts ++ e :: tail) = ss.map Except.ok) :
    DerivesProgram ts ss ∧ ∀ s ∈ ss, s.nesting ≤ maxNesting := by
  induction ss generalizing ts with
  | nil =>
    have hend := attempts_eq_nil_iff.mp h
    cases ts with
    | nil => exact ⟨.nil, List.forall_mem_nil _⟩
    | cons t ts =>
      rw [atEnd_cons_append (hts t List.mem_cons_self)] at hend
      cases hend
  | cons s ss ih =>
    obtain ⟨rest, hrun, hrest⟩ := run_of_attempts_eq_ok_cons h
    obtain ⟨us, hus, hv⟩ := run_declaration_eq_ok_iff.mp hrun
    -- the declaration ends before the end of the input
    have hmem : e ∉ us := by
      obtain ⟨vs, closing, rfl, hc, hunb⟩ := exists_concat hv
      intro hmem
      rcases List.mem_append.mp hmem with hmem | hmem
      · exact (hunb e hmem).2 he
      · rw [List.mem_singleton] at hmem
        rw [← hmem, he] at hc
        cases hc
    obtain ⟨ws, rfl, rfl⟩ := exists_of_append_eq_append_cons hus.symm hmem
    obtain ⟨hd, hn⟩ := ih (fun t ht => hts t (List.mem_append_right us ht)) hrest
    exact ⟨.cons hv.1 hd, List.forall_mem_cons.mpr ⟨hv.2, hn⟩⟩

/-! ### The grammar is unambiguous -/

/-- An expression has one tree: a rule with room for two trees finds only one. -/
theorem derivesExpression_unique {ts : List Token} {e e' : Expr} (h : DerivesExpression ts e)
    (h' : DerivesExpression ts e') : e = e' :=
  (reads_expression (max e.nesting e'.nesting)).unique ⟨h, Nat.le_max_left ..⟩
    ⟨h', Nat.le_max_right ..⟩

theorem derivesStatement_starts {ts : List Token} {s : Stmt} (h : DerivesStatement ts s) :
    ∃ t us, ts = t :: us ∧ t.kind ∈ .kwPrint :: (Category.binary .equality).starts := by
  cases h with
  | print hk _ _ => exact ⟨_, _, rfl, by simp [hk]⟩
  | expression h _ =>
    obtain ⟨t, us, rfl, ht⟩ := h.exists_cons
    exact ⟨t, _, rfl, List.mem_cons_of_mem _ ht⟩

theorem derivesStatement_unique {ts : List Token} {s s' : Stmt} (h : DerivesStatement ts s)
    (h' : DerivesStatement ts s') : s = s' := by
  -- an expression does not start with the keyword
  have hclash {keyword : Token} {us vs ws : List Token} {e : Expr} (hk : keyword.kind = .kwPrint)
      (hd : DerivesExpression us e) (heq : keyword :: vs = us ++ ws) : False := by
    obtain ⟨t, xs, rfl, ht⟩ := hd.exists_cons
    rw [← (List.cons.inj heq).1, hk] at ht
    revert ht
    decide
  cases h with
  | @print us keyword closing e hk h hc =>
    generalize hts : keyword :: us ++ [closing] = ts at h'
    cases h' with
    | print hk' h' hc' =>
      obtain ⟨rfl, _⟩ := List.append_inj' (List.cons.inj hts).2 rfl
      rw [derivesExpression_unique h h']
    | expression h' hc' => exact (hclash hk h' hts).elim
  | @expression us closing e h hc =>
    generalize hts : us ++ [closing] = ts at h'
    cases h' with
    | print hk' h' hc' => exact (hclash hk' h hts.symm).elim
    | expression h' hc' =>
      obtain ⟨rfl, _⟩ := List.append_inj' hts rfl
      rw [derivesExpression_unique h h']

theorem derivesDeclaration_unique {ts : List Token} {s s' : Stmt} (h : DerivesDeclaration ts s)
    (h' : DerivesDeclaration ts s') : s = s' := by
  -- a statement does not start with the keyword
  have hclash {keyword : Token} {us vs : List Token} {r : Stmt} (hk : keyword.kind = .kwVar)
      (hd : DerivesStatement us r) (heq : keyword :: vs = us) : False := by
    obtain ⟨t, xs, rfl, ht⟩ := derivesStatement_starts hd
    rw [← (List.cons.inj heq).1, hk] at ht
    revert ht
    decide
  cases h with
  | @bare keyword name closing hk hn hc =>
    generalize hts : [keyword, name, closing] = ts at h'
    cases h' with
    | bare => cases hts; rfl
    | initialized => simp at hts
    | statement h' => exact (hclash hk h' hts).elim
  | @initialized us keyword name equal closing e hk hn he h hc =>
    generalize hts : keyword :: name :: equal :: us ++ [closing] = ts at h'
    cases h' with
    | bare => simp at hts
    | initialized _ _ _ h' _ =>
      simp only [List.cons_append, List.cons.injEq] at hts
      obtain ⟨_, rfl, _, hts⟩ := hts
      obtain ⟨rfl, _⟩ := List.append_inj' hts rfl
      rw [derivesExpression_unique h h']
    | statement h' => exact (hclash hk h' hts).elim
  | statement h =>
    cases h' with
    | bare hk' _ _ => exact (hclash hk' h rfl).elim
    | initialized hk' _ _ _ _ => exact (hclash hk' h rfl).elim
    | statement h' => exact derivesStatement_unique h h'

/-- Where one declaration ends, no other that starts at the same place goes on. -/
theorem derivesDeclaration_append_inj {us vs us' vs' : List Token} {s s' : Stmt}
    (h : DerivesDeclaration us s) (h' : DerivesDeclaration us' s')
    (heq : us ++ vs = us' ++ vs') : us = us' ∧ vs = vs' := by
  obtain ⟨xs, closing, rfl, hc, hunb⟩ := h.exists_concat
  obtain ⟨xs', closing', rfl, hc', hunb'⟩ := h'.exists_concat
  rw [List.append_assoc, List.append_assoc] at heq
  obtain ⟨ws, rfl, hws⟩ := exists_of_append_eq_append_cons heq fun hmem => (hunb _ hmem).1 hc'
  cases ws with
  | nil =>
    cases hws
    exact ⟨by rw [List.append_nil], rfl⟩
  | cons w ws =>
    cases hws
    exact absurd hc (hunb' _ (List.mem_append_right _ List.mem_cons_self)).1

/-- **The grammar is unambiguous.** -/
theorem derivesProgram_unique {ts : List Token} {ss ss' : List Stmt} (h : DerivesProgram ts ss)
    (h' : DerivesProgram ts ss') : ss = ss' := by
  have hne {us vs : List Token} {s : Stmt} (hd : DerivesDeclaration us s) (heq : us ++ vs = []) :
      False := by
    obtain ⟨xs, closing, rfl, _⟩ := hd.exists_concat
    simp at heq
  induction h generalizing ss' with
  | nil =>
    generalize hts : [] = ts at h'
    cases h' with
    | nil => rfl
    | cons hd _ => exact (hne hd hts.symm).elim
  | @cons us vs s ss hd _ ih =>
    generalize hts : us ++ vs = ts at h'
    cases h' with
    | nil => exact (hne hd hts).elim
    | cons hd' hs' =>
      obtain ⟨rfl, rfl⟩ := derivesDeclaration_append_inj hd hd' hts
      rw [derivesDeclaration_unique hd hd', ih hs']

/-! ### The theorem -/

/-- **Parsing accepts exactly the grammar.**  Up to a first end of the input `e`,
the tokens `ts` are parsed to the statements `ss` without an error iff they derive
`ss`, one declaration after another, with every group and unary operator inside
fewer than `maxNesting` others of its statement.  No list of tokens derives two
lists of statements. -/
theorem parse_accepts_iff_derives (ts tail : List Token) (e : Token) (he : e.kind = .eof)
    (hts : ∀ t ∈ ts, t.kind ≠ .eof) :
    (∀ ss, parse (ts ++ [e] ++ tail) = ⟨ss, []⟩ ↔
      DerivesProgram ts ss ∧ ∀ s ∈ ss, ∀ d ∈ s.depths, d < maxNesting) ∧
    ∀ ss ss', DerivesProgram ts ss → DerivesProgram ts ss' → ss = ss' := by
  refine ⟨fun ss => ?_, fun ss ss' h h' => derivesProgram_unique h h'⟩
  simp only [Stmt.forall_depths_lt_iff]
  rw [List.append_assoc, List.singleton_append, parse_eq_iff]
  constructor
  · exact derivesProgram_of_attempts he hts
  · rintro ⟨hd, hn⟩
    exact attempts_of_derivesProgram he hd hn

/-- The statement `-a == (nil);`, with a token behind the end of the input. -/
theorem parse_accepts_equation :
    parse ([⟨.minus, "-", none, 1⟩, ⟨.identifier, "a", none, 1⟩, ⟨.equalEqual, "==", none, 1⟩,
        ⟨.leftParen, "(", none, 1⟩, ⟨.kwNil, "nil", none, 1⟩, ⟨.rightParen, ")", none, 1⟩,
        ⟨.semicolon, ";", none, 1⟩] ++ [⟨.eof, "", none, 1⟩] ++ [⟨.star, "*", none, 2⟩]) =
      ⟨[.expression (.binary
        (.unary ⟨.minus, "-", none, 1⟩ (.var ⟨.identifier, "a", none, 1⟩))
        ⟨.equalEqual, "==", none, 1⟩ (.group (.literal .nil)))], []⟩ := by
  have hleft : Derives .unary [⟨.minus, "-", none, 1⟩, ⟨.identifier, "a", none, 1⟩] _ :=
    .unary (Or.inr rfl) (.primary (.identifier rfl))
  have hgroup : Derives .primary ([⟨.leftParen, "(", none, 1⟩, ⟨.kwNil, "nil", none, 1⟩] ++
      [⟨.rightParen, ")", none, 1⟩]) _ :=
    .group rfl ((Derives.primary (.nil rfl)).binary .equality) rfl
  have hop : (⟨.equalEqual, "==", none, 1⟩ : Token).kind ∈ Level.equality.operators := by decide
  have hexpr : DerivesExpression _ _ :=
    .operation (hleft.binary .equality) hop ((Derives.primary hgroup).binary .comparison)
  have hend : (⟨.semicolon, ";", none, 1⟩ : Token).kind = .semicolon := rfl
  have hprogram := DerivesProgram.cons (.statement (.expression hexpr hend)) .nil
  exact ((parse_accepts_iff_derives _ _ _ rfl (by decide)).1 _).mpr ⟨hprogram, by decide⟩

end LoxLang.Program
