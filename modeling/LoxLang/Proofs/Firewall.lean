import LoxLang.Proofs.Attempts

/-! # A semicolon is a firewall

Parsing falls apart at every semicolon before the end of the input: what stands
before and up to it and what stands behind are parsed on their own, and the
statements and errors of the two are put one after the other
(`parse_append_semicolon`).  The parts need not be well formed.

One attempt decides it.  A successful one consumes a semicolon only as its last
token and looks at nothing behind.  A failing one has read no semicolon, so the
token it refuses stands at the semicolon or before it, and recovery does not step
over the semicolon.  Hence an attempt does the same whatever stands behind the
semicolon (`attempt_append_semicolon`), and it hands back either all that stands
behind or a shorter list of the same form.
-/
namespace LoxLang.Program
open Grammar

section Firewall
variable {semi : Token} (hsemi : semi.kind = .semicolon)
include hsemi

/-- A semicolon is not among tokens that hold none. -/
theorem not_mem_of_unbroken {us : List Token} (h : Unbroken us) : semi ∉ us :=
  fun hmem => (h semi hmem).1 hsemi

/-- **Recovery stops at a semicolon at the latest.** -/
theorem recover_append_semicolon {ts : List Token} (hts : ∀ t ∈ ts, t.kind ≠ .eof)
    (rest : List Token) : recover (ts ++ semi :: rest) = recover (ts ++ [semi]) ++ rest := by
  induction ts with
  | nil => simp [recover, hsemi]
  | cons t ts ih =>
    obtain ⟨ht, hts⟩ := List.forall_mem_cons.mp hts
    -- the token behind `t` is the same on both sides
    have hnext : atStatement (ts ++ semi :: rest) = atStatement (ts ++ [semi]) := by
      cases ts <;> rfl
    rw [List.cons_append, List.cons_append, recover, recover, if_neg ht, if_neg ht, hnext]
    split
    · rw [List.append_assoc, List.singleton_append]
    · exact ih hts

theorem run_declaration_append_semicolon_ok {ts rest left : List Token} {s : Stmt}
    (hrun : declaration.run (ts ++ semi :: rest) = (.ok s, left)) :
    ∃ left', declaration.run (ts ++ [semi]) = (.ok s, left') ∧ left = left' ++ rest := by
  obtain ⟨us, hus, hv⟩ := run_declaration_eq_ok_iff.mp hrun
  obtain ⟨vs, closing, rfl, _, hunb⟩ := exists_concat hv
  rw [List.append_assoc] at hus
  obtain ⟨ws, rfl, hws⟩ :=
    exists_of_append_eq_append_cons hus.symm (not_mem_of_unbroken hsemi hunb)
  cases ws with
  | nil =>
    -- the declaration is closed by this very semicolon
    cases hws
    rw [List.append_nil]
    exact ⟨[], run_declaration_eq_ok_iff.mpr ⟨_, (List.append_nil _).symm, hv⟩, rfl⟩
  | cons w ws =>
    -- it is closed by an earlier one
    cases hws
    refine ⟨ws ++ [semi], run_declaration_eq_ok_iff.mpr ⟨_, ?_, hv⟩, ?_⟩
    · simp
    · simp

theorem run_declaration_append_semicolon_error {ts rest left : List Token} {e : SyntaxError}
    (hts : ∀ t ∈ ts, t.kind ≠ .eof)
    (hrun : declaration.run (ts ++ semi :: rest) = (.error e, left)) :
    ∃ left', declaration.run (ts ++ [semi]) = (.error e, left') ∧
      recover left = recover left' ++ rest := by
  obtain ⟨us, vs, demand, consumed, hus, hfail, _, hunb⟩ := run_declaration_error hrun
  obtain ⟨ws, rfl, rfl⟩ :=
    exists_of_append_eq_append_cons hus.symm (not_mem_of_unbroken hsemi hunb)
  have hws : ∀ t ∈ ws, t.kind ≠ .eof := fun t ht => hts t (List.mem_append_right us ht)
  have hhead : (ws ++ [semi]).head? = (ws ++ semi :: rest).head? := by
    cases ws <;> rfl
  rw [List.append_assoc, hfail.run_eq _ rfl] at hrun
  cases hrun
  refine ⟨(ws ++ [semi]).drop consumed, ?_, ?_⟩
  · rw [List.append_assoc, hfail.run_eq _ hhead]
  · rcases hfail.consumed_eq with rfl | ⟨rfl, _, t, ht, hkind⟩
    · exact recover_append_semicolon hsemi hws rest
    · -- a consumed unary operator is not the semicolon, so it stands before it
      cases ws with
      | nil =>
        cases ht
        rcases hkind with hkind | hkind <;> rw [hkind] at hsemi <;> cases hsemi
      | cons w ws => exact recover_append_semicolon hsemi (List.forall_mem_cons.mp hws).2 rest

/-- **One attempt.**  It does the same whatever stands behind the semicolon. -/
theorem attempt_append_semicolon {ts : List Token} (hts : ∀ t ∈ ts, t.kind ≠ .eof)
    (rest : List Token) :
    attempt (ts ++ semi :: rest) =
      ((attempt (ts ++ [semi])).1, (attempt (ts ++ [semi])).2 ++ rest) := by
  rcases hrun : declaration.run (ts ++ semi :: rest) with ⟨e | s, left⟩
  · obtain ⟨left', hrun', hleft⟩ := run_declaration_append_semicolon_error hsemi hts hrun
    simp only [attempt, hrun, hrun', hleft]
  · obtain ⟨left', hrun', hleft⟩ := run_declaration_append_semicolon_ok hsemi hrun
    simp only [attempt, hrun, hrun', hleft]

/-- **The attempts.**  Those up to the semicolon come first, then those behind.
The induction is on the tokens before the semicolon, of which an attempt leaves
fewer if it leaves the semicolon at all. -/
theorem attempts_append_semicolon {ts : List Token} (hts : ∀ t ∈ ts, t.kind ≠ .eof)
    (rest : List Token) :
    attempts (ts ++ semi :: rest) = attempts (ts ++ [semi]) ++ attempts rest := by
  induction hn : ts.length using Nat.strongRecOn generalizing ts with | _ n ih =>
  have hend : ∀ us, atEnd (ts ++ semi :: us) = false := by
    intro us
    cases ts with
    | nil => simp [hsemi]
    | cons t ts => exact atEnd_cons_append (hts t List.mem_cons_self) ts _
  have hlt := length_attempt_lt (hend [])
  rw [attempts_cons (hend rest), attempts_cons (hend []), attempt_append_semicolon hsemi hts,
    List.cons_append]
  rcases List.suffix_concat_iff.mp (attempt_suffix (ts ++ [semi])) with hleft | ⟨us, hleft, hus⟩
  · rw [hleft, attempts_atEnd atEnd_nil, List.nil_append, List.nil_append]
  · rw [hleft, List.length_append, List.length_append] at hlt
    have husEof : ∀ t ∈ us, t.kind ≠ .eof := fun t ht => hts t (hus.subset ht)
    have htail := ih us.length (by omega) husEof rfl
    rw [hleft, List.append_assoc, List.singleton_append, htail]

end Firewall

/-- **A semicolon is a firewall.**  Whatever the tokens `ts` before it are, as long
as the input does not end among them, and whatever stands behind it, the
statements are those up to the semicolon and then those of the rest parsed on its
own, and so are the errors. -/
theorem parse_append_semicolon (ts rest : List Token) (semi : Token)
    (hsemi : semi.kind = .semicolon) (hts : ∀ t ∈ ts, t.kind ≠ .eof) :
    (parse (ts ++ [semi] ++ rest)).statements =
        (parse (ts ++ [semi])).statements ++ (parse rest).statements ∧
      (parse (ts ++ [semi] ++ rest)).errors =
        (parse (ts ++ [semi])).errors ++ (parse rest).errors := by
  rw [List.append_assoc, List.singleton_append]
  constructor
  · rw [statements_parse, attempts_append_semicolon hsemi hts, List.filterMap_append]
    rfl
  · rw [errors_parse, attempts_append_semicolon hsemi hts, List.filterMap_append]
    rfl

/-- `var = ( ;` is nothing but a fault, and so is the unfinished `print` behind it. -/
theorem parse_append_semicolon_malformed :
    let ts : List Token :=
      [⟨.kwVar, "var", none, 1⟩, ⟨.equal, "=", none, 1⟩, ⟨.leftParen, "(", none, 1⟩]
    let semi : Token := ⟨.semicolon, ";", none, 1⟩
    let rest : List Token := [⟨.kwPrint, "print", none, 2⟩, ⟨.eof, "", none, 2⟩]
    (∀ t ∈ ts, t.kind ≠ .eof) ∧
      (parse (ts ++ [semi] ++ rest)).statements =
        (parse (ts ++ [semi])).statements ++ (parse rest).statements ∧
      (parse (ts ++ [semi] ++ rest)).errors =
        (parse (ts ++ [semi])).errors ++ (parse rest).errors :=
  ⟨by decide, parse_append_semicolon _ _ _ rfl (by decide)⟩

end LoxLang.Program
