import LoxLang.Program
import LoxLang.Proofs.Exactness

/-! # A program, attempt by attempt

How one attempt at a declaration goes, told without the rules of the grammar: it
succeeds on exactly the valid declarations (`run_declaration_eq_ok_iff`), and when
it fails no semicolon is among the tokens it read before the one it refuses
(`run_declaration_error`).  The equations of `attempts` below are all that later
modules know of the loop.
-/
namespace LoxLang.Program
open Grammar

/-! ### The loop -/

section Loop
variable {ts rest : List Token}

@[simp] theorem atEnd_nil : atEnd [] = true := rfl

@[simp] theorem atEnd_cons (t : Token) (ts : List Token) :
    atEnd (t :: ts) = decide (t.kind = .eof) := rfl

theorem atEnd_cons_append {t : Token} (h : t.kind ≠ .eof) (us vs : List Token) :
    atEnd (t :: us ++ vs) = false := by
  simpa using h

theorem attempts_atEnd (h : atEnd ts = true) : attempts ts = [] := by
  rw [attempts, if_pos h]

theorem attempts_cons (h : atEnd ts = false) :
    attempts ts = (attempt ts).1 :: attempts (attempt ts).2 := by
  rw [attempts, if_neg (by simp [h])]

theorem attempts_ok {s : Stmt} (h : atEnd ts = false) (hrun : declaration.run ts = (.ok s, rest)) :
    attempts ts = .ok s :: attempts rest := by
  rw [attempts_cons h]
  simp only [attempt, hrun]

theorem attempts_error {e : SyntaxError} (h : atEnd ts = false)
    (hrun : declaration.run ts = (.error e, rest)) :
    attempts ts = .error e :: attempts (recover rest) := by
  rw [attempts_cons h]
  simp only [attempt, hrun]

/-- What an attempt leaves is a suffix of what it is given. -/
theorem attempt_suffix (ts : List Token) : (attempt ts).2 <:+ ts := by
  rw [attempt]
  split
  · exact declaration.suffix ts
  · exact (recover_suffix _).trans (declaration.suffix ts)

theorem attempts_eq_nil_iff : attempts ts = [] ↔ atEnd ts = true := by
  constructor
  · intro h
    cases hend : atEnd ts with
    | true => rfl
    | false =>
      rw [attempts_cons hend] at h
      cases h
  · exact attempts_atEnd

/-- A success at the head of the outcomes is that of the first attempt. -/
theorem run_of_attempts_eq_ok_cons {s : Stmt} {outcomes : List (Except SyntaxError Stmt)}
    (h : attempts ts = .ok s :: outcomes) :
    ∃ rest, declaration.run ts = (.ok s, rest) ∧ attempts rest = outcomes := by
  cases hend : atEnd ts with
  | true =>
    rw [attempts_atEnd hend] at h
    cases h
  | false =>
    rcases hrun : declaration.run ts with ⟨_ | s', rest⟩
    · rw [attempts_error hend hrun] at h
      cases h
    · rw [attempts_ok hend hrun] at h
      cases h
      exact ⟨rest, rfl, rfl⟩

theorem statements_parse (ts : List Token) :
    (parse ts).statements = (attempts ts).filterMap statement? := rfl

theorem errors_parse (ts : List Token) :
    (parse ts).errors = (attempts ts).filterMap error? := rfl

end Loop

/-! ### One attempt -/

/-- **An attempt succeeds on exactly the valid declarations**, whatever follows. -/
theorem run_declaration_eq_ok_iff {ts rest : List Token} {s : Stmt} :
    declaration.run ts = (.ok s, rest) ↔ ∃ us, ts = us ++ rest ∧ ValidDeclaration us s := by
  rw [reads_declaration.run_eq_ok_iff]
  constructor
  · rintro ⟨us, hus, hv, _⟩
    exact ⟨us, hus, hv⟩
  · rintro ⟨us, hus, hv⟩
    exact ⟨us, hus, hv, free_none⟩

theorem exists_concat {us : List Token} {s : Stmt} (h : ValidDeclaration us s) :
    ∃ vs closing, us = vs ++ [closing] ∧ closing.kind = .semicolon ∧ Unbroken vs :=
  h.1.exists_concat

/-- The beginning of a declaration that is none itself holds no semicolon. -/
theorem unbroken_of_begins {us : List Token} (h : ValidDeclaration.Begins us)
    (hnot : ∀ s, ¬ ValidDeclaration us s) : Unbroken us := by
  obtain ⟨vs, s, hv⟩ := h
  obtain ⟨ws, closing, hws, _, hunb⟩ := exists_concat hv
  rcases List.eq_nil_or_concat vs with rfl | ⟨xs, last, rfl⟩
  · rw [List.append_nil] at hv
    exact absurd hv (hnot s)
  · rw [List.concat_eq_append, ← List.append_assoc] at hws
    have hus : us ++ xs = ws := List.append_inj_left' hws rfl
    rw [← hus] at hunb
    exact (unbroken_append.mp hunb).1

/-- No declaration stands at the front of tokens from which none can be read. -/
theorem not_valid_of_run_error {ts us rest : List Token} {e : SyntaxError}
    (hrun : declaration.run ts = (.error e, rest)) (hus : us <+: ts) (s : Stmt) :
    ¬ ValidDeclaration us s := by
  intro hv
  obtain ⟨vs, rfl⟩ := hus
  have hok : declaration.run (us ++ vs) = (.ok s, vs) :=
    run_declaration_eq_ok_iff.mpr ⟨us, rfl, hv⟩
  rw [hrun] at hok
  cases congrArg Prod.fst hok

/-- **A failing attempt reads no semicolon.** -/
theorem run_declaration_error {ts rest : List Token} {e : SyntaxError}
    (hrun : declaration.run ts = (.error e, rest)) :
    ∃ us vs demand consumed, ts = us ++ vs ∧ declaration.FailsAt us vs.head? demand consumed ∧
      ValidDeclaration.Begins us ∧ Unbroken us := by
  obtain ⟨us, vs, demand, consumed, rfl, hfail, hbegins⟩ := reads_declaration.exists_failsAt hrun
  exact ⟨us, vs, demand, consumed, rfl, hfail, hbegins,
    unbroken_of_begins hbegins (not_valid_of_run_error hrun (List.prefix_append us vs))⟩

/-- **Every statement of a program is read from a declaration of its own**, also
where others of the program cannot be read. -/
theorem exists_valid_of_mem_statements {ts : List Token} {s : Stmt}
    (hs : s ∈ (parse ts).statements) : ∃ us, us <:+: ts ∧ ValidDeclaration us s := by
  rw [statements_parse] at hs
  obtain ⟨outcome, hmem, hok⟩ := List.mem_filterMap.mp hs
  fun_induction attempts ts with
  | case1 => cases hmem
  | case2 ts hend r ih =>
    rcases List.mem_cons.mp hmem with rfl | hmem
    · rcases hrun : declaration.run ts with ⟨e | s', rest⟩
      · simp [r, attempt, hrun, statement?] at hok
      · obtain rfl : s' = s := by simpa [r, attempt, hrun, statement?] using hok
        obtain ⟨us, rfl, hv⟩ := run_declaration_eq_ok_iff.mp hrun
        exact ⟨us, (List.prefix_append us rest).isInfix, hv⟩
    · obtain ⟨us, hus, hv⟩ := ih (List.mem_filterMap.mpr ⟨outcome, hmem, hok⟩) hmem
      exact ⟨us, hus.trans (attempt_suffix ts).isInfix, hv⟩

/-- A list that ends before `t` does not reach behind it. -/
theorem exists_of_append_eq_append_cons {us vs ts tail : List Token} {t : Token}
    (h : us ++ vs = ts ++ t :: tail) (hus : t ∉ us) :
    ∃ ws, ts = us ++ ws ∧ vs = ws ++ t :: tail := by
  rcases List.append_eq_append_iff.mp h with ⟨ws, hts, hvs⟩ | ⟨ws, hws, htail⟩
  · exact ⟨ws, hts, hvs⟩
  · cases ws with
    | nil => exact ⟨[], by simpa using hws.symm, by simpa using htail.symm⟩
    | cons w ws =>
      cases htail
      exact absurd (by simp [hws]) hus

end LoxLang.Program
